import Mathlib.Data.List.TakeWhile
import DdgServer.Log.Pattern

/-!
# The grammar of patterns

What a pattern is, as a relation: `Parses p ss` says that the parser reads `p` as the segments `ss`.
Of two `'%'` it takes the first as a character and reads on at the second. `Segments p ss` is the
part of it for texts without two `'%'` in a row (`parses_iff_segments`).

* `patternLoop_parses`: of a text of the grammar, the outer loop makes the triples of its segments.
* `patternLoop_bad`: of any other text it makes a triple of an unknown name, or sets the error flag.
* `accepted_iff`: a pattern is accepted iff it is of the grammar.
* `itemsOf`: the items that segments stand for. `madeItems`: those that the parser makes of them, all
  dates in the default format; `madeItems_eq_iff`: when the two agree.
* `initPattern_exact`: without two `'%'` in a row, `initPattern` accepts exactly the texts of
  segments, and appends the items of the segments exactly if no date names another format.
-/

namespace Ddg

namespace LogFormatter

/-! ## Segments and their items -/

/-- A literal character, or an item with its name and its format. -/
inductive Segment
  | literal (c : Char)
  | item (name : Char) (fmt : Option Text)

/-- The twelve names, with their items. -/
def itemTable : List (Char × FormatItem) :=
  [('m', .message), ('p', .level), ('r', .elapse), ('c', .name), ('t', .threadId), ('n', .newLine),
    ('d', .dateTime "%Y-%m-%d %H:%M:%S".toList), ('f', .filename), ('l', .line), ('T', .tab),
    ('F', .fiberId), ('N', .threadId)]

/-- The item of a name, if it is one of the twelve. -/
def itemOf (name : Char) : Option FormatItem := itemTable.lookup name

/-- What may follow an item without braces: the end, or a character that is neither a letter nor a
brace. -/
def EndsName (p : Text) : Prop := ∀ c ∈ p.head?, c.isAlpha = false ∧ c ≠ '{' ∧ c ≠ '}'

/-- `p` is the text of the segments. -/
inductive Segments : Text → List Segment → Prop
  | nil : Segments [] []
  | literal {c : Char} {p : Text} {ss : List Segment} :
      c ≠ '%' → Segments p ss → Segments (c :: p) (.literal c :: ss)
  | bare {name : Char} {p : Text} {ss : List Segment} :
      (itemOf name).isSome → EndsName p → Segments p ss →
        Segments ('%' :: name :: p) (.item name none :: ss)
  | braced {name : Char} {fmt p : Text} {ss : List Segment} :
      (itemOf name).isSome → '}' ∉ fmt → Segments p ss →
        Segments ('%' :: name :: '{' :: (fmt ++ '}' :: p)) (.item name (some fmt) :: ss)

/-- The parser reads `p` as the segments. -/
inductive Parses : Text → List Segment → Prop
  | nil : Parses [] []
  | literal {c : Char} {p : Text} {ss : List Segment} :
      c ≠ '%' → Parses p ss → Parses (c :: p) (.literal c :: ss)
  /-- The second `'%'` is not skipped. -/
  | percent {p : Text} {ss : List Segment} :
      Parses ('%' :: p) ss → Parses ('%' :: '%' :: p) (.literal '%' :: ss)
  | bare {name : Char} {p : Text} {ss : List Segment} :
      (itemOf name).isSome → EndsName p → Parses p ss →
        Parses ('%' :: name :: p) (.item name none :: ss)
  | braced {name : Char} {fmt p : Text} {ss : List Segment} :
      (itemOf name).isSome → '}' ∉ fmt → Parses p ss →
        Parses ('%' :: name :: '{' :: (fmt ++ '}' :: p)) (.item name (some fmt) :: ss)

/-- The item of the literal characters `s`, if there are any. -/
def literalItem (s : Text) : List FormatItem := if s = [] then [] else [.string s]

/-- The item that a name and a format stand for: a date in the format in the braces. No other item
has a format. -/
def itemFor (name : Char) (fmt : Option Text) : Option FormatItem :=
  if name = 'd' then some (.newDateTime (fmt.getD [])) else itemOf name

/-- The items of segments, adjacent literal characters in one item; `s` is the literal characters
just before the segments. -/
def itemsBy (item : Char → Option Text → Option FormatItem) :
    Text → List Segment → List FormatItem
  | s, [] => literalItem s
  | s, .literal c :: ss => itemsBy item (s ++ [c]) ss
  | s, .item name fmt :: ss => literalItem s ++ (item name fmt).toList ++ itemsBy item [] ss

/-- The items that segments stand for. -/
def itemsOf (ss : List Segment) : List FormatItem := itemsBy itemFor [] ss

/-- The items that the parser makes of segments: the table takes no format. -/
def madeItems (s : Text) (ss : List Segment) : List FormatItem :=
  itemsBy (fun name _ => itemOf name) s ss

@[simp] theorem madeItems_nil (s : Text) : madeItems s [] = literalItem s := rfl

@[simp] theorem madeItems_literal (s : Text) (c : Char) (ss : List Segment) :
    madeItems s (.literal c :: ss) = madeItems (s ++ [c]) ss := rfl

@[simp] theorem madeItems_item (s : Text) (name : Char) (fmt : Option Text) (ss : List Segment) :
    madeItems s (.item name fmt :: ss) =
      literalItem s ++ (itemOf name).toList ++ madeItems [] ss := rfl

/-- Two tables of the same names make the same items exactly if they agree on the items of the
segments. -/
theorem itemsBy_eq_iff {item item' : Char → Option Text → Option FormatItem}
    (hsome : ∀ name fmt, (item name fmt).isSome = (item' name fmt).isSome) {s : Text}
    {ss : List Segment} : itemsBy item s ss = itemsBy item' s ss ↔
      ∀ name fmt, .item name fmt ∈ ss → item name fmt = item' name fmt := by
  induction ss generalizing s with
  | nil => exact ⟨fun _ _ _ h => absurd h List.not_mem_nil, fun _ => rfl⟩
  | cons x ss ih =>
    cases x with
    | literal c =>
      rw [itemsBy, itemsBy, ih]
      simp
    | item name fmt =>
      have hlen : (item name fmt).toList.length = (item' name fmt).toList.length := by
        have := hsome name fmt
        cases h : item name fmt <;> cases h' : item' name fmt <;> simp_all
      have hlist : (item name fmt).toList = (item' name fmt).toList ↔
          item name fmt = item' name fmt := by
        cases item name fmt <;> cases item' name fmt <;> simp
      rw [itemsBy, itemsBy, List.append_assoc, List.append_assoc, List.append_cancel_left_eq]
      constructor
      · intro h n f hm
        obtain ⟨hhead, htail⟩ := List.append_inj h hlen
        rcases List.mem_cons.mp hm with heq | hm
        · cases heq
          exact hlist.mp hhead
        · exact ih.mp htail n f hm
      · intro h
        rw [h name fmt List.mem_cons_self,
          ih.mpr fun n f hm => h n f (List.mem_cons_of_mem _ hm)]

/-- The default argument of the constructor of `DateTimeFormatItem`. -/
def defaultDateFormat : Text := "%Y-%m-%d %H:%M:%S".toList

/-- A date item that names a format has the default one. -/
def DefaultDates (ss : List Segment) : Prop :=
  ∀ fmt, .item 'd' (some fmt) ∈ ss → fmt ≠ [] → fmt = defaultDateFormat

/-- The table has the item of a date only for the default format. -/
theorem itemOf_eq_itemFor (name : Char) (fmt : Option Text) : itemOf name = itemFor name fmt ↔
    (name = 'd' → ∀ f, fmt = some f → f ≠ [] → f = defaultDateFormat) := by
  unfold itemFor
  by_cases hname : name = 'd'
  · subst hname
    have hitem : itemOf 'd' = some (.dateTime defaultDateFormat) := rfl
    have hnew (f : Text) :
        FormatItem.newDateTime f = .dateTime (if f = [] then defaultDateFormat else f) := rfl
    rw [if_pos rfl, hitem, hnew]
    cases fmt with
    | none => simp
    | some f => by_cases hf : f = [] <;> simp [hf, eq_comm]
  · simp [hname]

theorem madeItems_eq_iff {ss : List Segment} : madeItems [] ss = itemsOf ss ↔ DefaultDates ss := by
  have hsome (name : Char) (fmt : Option Text) :
      (itemOf name).isSome = (itemFor name fmt).isSome := by
    unfold itemFor
    split
    · rename_i h
      rw [h]
      rfl
    · rfl
  unfold madeItems itemsOf
  rw [itemsBy_eq_iff hsome]
  constructor
  · intro h fmt hmem
    exact (itemOf_eq_itemFor 'd' (some fmt)).mp (h 'd' (some fmt) hmem) rfl fmt rfl
  · intro h name fmt hmem
    refine (itemOf_eq_itemFor name fmt).mpr ?_
    rintro rfl f rfl
    exact h f hmem

/-- No `'%'` directly followed by another. -/
def NoEscape (p : Text) : Prop := ¬ ['%', '%'] <:+: p

instance (p : Text) : Decidable (NoEscape p) := inferInstanceAs (Decidable (¬ ['%', '%'] <:+: p))

theorem NoEscape.of_suffix {p q : Text} (hn : NoEscape p) (h : q <:+ p) : NoEscape q :=
  fun hi => hn (hi.trans h.isInfix)

/-- Without two `'%'` in a row, both relations are one. -/
theorem parses_iff_segments {p : Text} {ss : List Segment} (hn : NoEscape p) :
    Parses p ss ↔ Segments p ss := by
  constructor
  · intro h
    induction h with
    | nil => exact .nil
    | literal hc _ ih => exact .literal hc (ih (hn.of_suffix (List.suffix_cons _ _)))
    | @percent p => exact absurd ⟨[], p, rfl⟩ hn
    | @bare name p _ hk he _ ih => exact .bare hk he (ih (hn.of_suffix ⟨['%', name], rfl⟩))
    | @braced name fmt p _ hk hf _ ih =>
      exact .braced hk hf (ih (hn.of_suffix ⟨'%' :: name :: '{' :: (fmt ++ ['}']), by simp⟩))
  · intro h
    clear hn
    induction h with
    | nil => exact .nil
    | literal hc _ ih => exact .literal hc ih
    | bare hk he _ ih => exact .bare hk he ih
    | braced hk hf _ ih => exact .braced hk hf ih

theorem formatItems_eq : formatItems = itemTable.map fun e => ([e.1], fun _ => e.2) := rfl

theorem lookup_formatItems_single (c : Char) :
    formatItems.lookup [c] = (itemOf c).map fun x _ => x := by
  rw [formatItems_eq, itemOf]
  induction itemTable with
  | nil => rfl
  | cons e l ih =>
    obtain ⟨d, x⟩ := e
    simp only [List.map_cons, List.lookup_cons, List.cons_beq_cons, BEq.rfl, Bool.and_true]
    by_cases h : c == d <;> simp [h, ih]

/-- A name that the table knows is one of the twelve. -/
theorem known_of_lookup {str : Text} {make : Text → FormatItem}
    (h : formatItems.lookup str = some make) : ∃ c, str = [c] ∧ (itemOf c).isSome := by
  rcases str with _ | ⟨c, _ | ⟨d, str⟩⟩
  · cases h
  · refine ⟨c, rfl, ?_⟩
    rw [lookup_formatItems_single] at h
    obtain ⟨x, hx, -⟩ := Option.map_eq_some_iff.mp h
    rw [hx]
    rfl
  · simp [formatItems, List.lookup_cons] at h

/-! ## The inner loop -/

/-- The characters that the inner loop takes into a name. -/
def inName (c : Char) : Bool := c.isAlpha || c == '}'

theorem drop_succ {p rest : Text} {n : ℕ} {c : Char} (h : p.drop n = c :: rest) :
    p.drop (n + 1) = rest ∧ n < p.length ∧ (n + 1 = p.length ↔ rest = []) := by
  have hlen : (p.drop n).length = rest.length + 1 := by rw [h]; rfl
  rw [List.length_drop] at hlen
  refine ⟨?_, by omega, ?_⟩
  · rw [← List.drop_drop, h]; rfl
  · rw [← List.length_eq_zero_iff]; omega

/-- The loop inside a format stops after the first `'}'`. -/
theorem itemLoop_closed {pattern : Text} {i b : ℕ} {str r fmt : Text} (hf : '}' ∉ fmt) {n : ℕ}
    (h : pattern.drop n = fmt ++ '}' :: r) :
    itemLoop pattern i (fmt ++ '}' :: r) ⟨n, str, [], true, b⟩ =
      ⟨n + fmt.length + 1, str, substr pattern (b + 1) (n + fmt.length - b - 1), false, b⟩ := by
  induction fmt generalizing n with
  | nil => simp [itemLoop]
  | cons c fmt ih =>
    obtain ⟨hd, -, he⟩ := drop_succ h
    obtain ⟨hc, hf⟩ : c ≠ '}' ∧ '}' ∉ fmt := by
      rw [List.mem_cons, not_or] at hf
      exact ⟨Ne.symm hf.1, hf.2⟩
    have hn : n + 1 ≠ pattern.length := fun e => by simp [he] at e
    have hstep : itemLoop pattern i (c :: fmt ++ '}' :: r) ⟨n, str, [], true, b⟩ =
        itemLoop pattern i (fmt ++ '}' :: r) ⟨n + 1, str, [], true, b⟩ := by
      simp [itemLoop, hc, hn]
    rw [hstep, ih hf hd, List.length_cons, Nat.add_right_comm n 1, ← Nat.add_assoc]

/-- Without a `'}'` the loop ends inside the format. -/
theorem itemLoop_open {pattern : Text} {i b : ℕ} {rest : Text} (hr : '}' ∉ rest) {n : ℕ}
    {str : Text} : (itemLoop pattern i rest ⟨n, str, [], true, b⟩).fmtStatus = true := by
  induction rest generalizing n str with
  | nil => rfl
  | cons c rest ih =>
    rw [List.mem_cons, not_or] at hr
    unfold itemLoop
    rw [if_neg (by simp), if_neg (by simp), if_neg (by simpa using Ne.symm hr.1)]
    split
    · exact ih hr.2
    · exact ih hr.2

theorem itemLoop_inName {pattern : Text} {i n : ℕ} {c : Char} {rest : Text} (hc : inName c) :
    itemLoop pattern i (c :: rest) ⟨n, [], [], false, 0⟩ =
      itemLoop pattern i rest
        ⟨n + 1, if n + 1 = pattern.length then pattern.drop (i + 1) else [], [], false, 0⟩ := by
  have h1 : (!c.isAlpha && c != '{' && c != '}') = false := by
    unfold inName at hc
    by_cases hb : c = '}' <;> simp_all
  have h2 : c ≠ '{' := by rintro rfl; exact absurd hc (by decide)
  rw [itemLoop]
  simp only [Bool.not_false, Bool.true_and, h1, Bool.false_eq_true, if_false, beq_iff_eq, h2,
    Bool.false_and, and_true]
  split <;> rfl

/-- The loop inside a name that the pattern does not end with. -/
theorem itemLoop_name {pattern : Text} {i : ℕ} {w r : Text} (hw : ∀ c ∈ w, inName c) (hr : r ≠ [])
    {n : ℕ} (h : pattern.drop n = w ++ r) :
    itemLoop pattern i (w ++ r) ⟨n, [], [], false, 0⟩ =
      itemLoop pattern i r ⟨n + w.length, [], [], false, 0⟩ := by
  induction w generalizing n with
  | nil => rfl
  | cons c w ih =>
    obtain ⟨hd, -, he⟩ := drop_succ h
    have hn : n + 1 ≠ pattern.length := fun e => by simp [he, hr] at e
    rw [List.cons_append, itemLoop_inName (hw c (by simp)), if_neg hn,
      ih (fun d hd => hw d (by simp [hd])) hd, List.length_cons, Nat.add_right_comm, Nat.add_assoc]

/-- The loop inside a name that the pattern ends with. -/
theorem itemLoop_end {pattern : Text} {i : ℕ} {w : Text} (hw : ∀ c ∈ w, inName c) {n : ℕ}
    (h : pattern.drop n = w) :
    itemLoop pattern i w ⟨n, [], [], false, 0⟩ =
      ⟨n + w.length, if w = [] then [] else pattern.drop (i + 1), [], false, 0⟩ := by
  induction w generalizing n with
  | nil => rfl
  | cons c w ih =>
    obtain ⟨hd, -, he⟩ := drop_succ h
    rw [itemLoop_inName (hw c (by simp))]
    by_cases hw' : w = []
    · subst hw'
      rw [if_pos (he.mpr rfl)]
      rfl
    · rw [if_neg (fun e => hw' (he.mp e)), ih (fun d hd => hw d (by simp [hd])) hd, if_neg hw',
        if_neg (by simp), List.length_cons, Nat.add_right_comm, Nat.add_assoc]

/-! ## One item -/

theorem substr_prefix {p w r : Text} {i : ℕ} (h : p.drop i = w ++ r) : substr p i w.length = w := by
  rw [substr, h, List.take_left]

/-- An item that ends without braces. -/
theorem scanItem_bare {pattern w r : Text} {i : ℕ} (hw : ∀ c ∈ w, inName c) (hr : EndsName r)
    (h : pattern.drop (i + 1) = w ++ r) :
    scanItem pattern i = ⟨i + 1 + w.length, w, [], false, 0⟩ := by
  unfold scanItem
  cases r with
  | nil =>
    rw [List.append_nil] at h
    rw [h, itemLoop_end hw h]
    split
    · rename_i hw
      rw [hw]
    · rw [h]
  | cons c r =>
    obtain ⟨ha, ho, hc⟩ := hr c rfl
    rw [h, itemLoop_name hw (by simp) h, itemLoop, if_pos (by simp [ha, ho, hc])]
    have hn : i + 1 + w.length - i - 1 = w.length := by omega
    rw [hn, substr_prefix h]

/-- An item with braces. -/
theorem scanItem_closed {pattern w fmt r : Text} {i : ℕ} (hw : ∀ c ∈ w, inName c)
    (hf : '}' ∉ fmt) (h : pattern.drop (i + 1) = w ++ '{' :: (fmt ++ '}' :: r)) :
    ∃ b, scanItem pattern i = ⟨i + 1 + w.length + 1 + fmt.length + 1, w, fmt, false, b⟩ := by
  have hb : pattern.drop (i + 1 + w.length + 1) = fmt ++ '}' :: r := by
    rw [← List.drop_drop, ← List.drop_drop, h, List.drop_left]; rfl
  have hn : i + 1 + w.length - i - 1 = w.length := by omega
  have hk : i + 1 + w.length + 1 + fmt.length - (i + 1 + w.length) - 1 = fmt.length := by omega
  refine ⟨i + 1 + w.length, ?_⟩
  unfold scanItem
  rw [h, itemLoop_name hw (by simp) h, itemLoop, if_neg (by simp), if_pos (by simp)]
  simp only
  rw [itemLoop_closed hf hb, hn, substr_prefix h, hk, substr_prefix hb]

/-- An item whose braces do not end. -/
theorem scanItem_open {pattern w r : Text} {i : ℕ} (hw : ∀ c ∈ w, inName c) (hr : '}' ∉ r)
    (h : pattern.drop (i + 1) = w ++ '{' :: r) : (scanItem pattern i).fmtStatus = true := by
  unfold scanItem
  rw [h, itemLoop_name hw (by simp) h, itemLoop, if_neg (by simp), if_pos (by simp)]
  exact itemLoop_open hr

/-- The text after an item with braces. -/
theorem drop_braced {pattern w fmt r : Text} {i : ℕ}
    (h : pattern.drop (i + 1) = w ++ '{' :: (fmt ++ '}' :: r)) :
    pattern.drop (i + 1 + w.length + 1 + fmt.length + 1) = r := by
  have hn : i + 1 + w.length + 1 + fmt.length + 1 = (i + 1) + (w.length + (fmt.length + 2)) := by
    omega
  rw [hn, ← List.drop_drop, h, ← List.drop_drop, List.drop_left]
  simp

/-- What stands after a `'%'`: a name and then one of the three. -/
theorem item_cases (q : Text) : ∃ w, (∀ c ∈ w, inName c) ∧
    ((∃ r, EndsName r ∧ q = w ++ r) ∨ (∃ fmt r, '}' ∉ fmt ∧ q = w ++ '{' :: (fmt ++ '}' :: r)) ∨
      ∃ r, '}' ∉ r ∧ q = w ++ '{' :: r) := by
  refine ⟨q.takeWhile inName, fun c hc => List.mem_takeWhile_imp hc, ?_⟩
  have hq := (List.takeWhile_append_dropWhile (p := inName) (l := q)).symm
  cases hd : q.dropWhile inName with
  | nil =>
    rw [hd] at hq
    exact .inl ⟨[], by simp [EndsName], hq⟩
  | cons c r =>
    have hc : inName c = false := by
      have := List.head_dropWhile_not inName (l := q) (by simp [hd])
      simpa [hd] using this
    rw [hd] at hq
    by_cases ho : c = '{'
    · subst ho
      by_cases hr : '}' ∈ r
      · obtain ⟨fmt, r', rfl, hf⟩ := List.eq_append_cons_of_mem hr
        exact .inr (.inl ⟨fmt, r', hf, hq⟩)
      · exact .inr (.inr ⟨r, hr, hq⟩)
    · refine .inl ⟨c :: r, ?_, hq⟩
      intro d hd'
      obtain rfl : c = d := by simpa using hd'
      rw [inName, Bool.or_eq_false_iff, beq_eq_false_iff_ne] at hc
      exact ⟨hc.1, ho, hc.2⟩

/-! ## The outer loop -/

/-- The triple of the literal characters `s`, if there are any. -/
def literalTriple (s : Text) : List (Text × Text × ℕ) := if s = [] then [] else [(s, [], 0)]

/-- The triples of segments; `s` is the literal characters just before them. -/
def triplesOf : Text → List Segment → List (Text × Text × ℕ)
  | s, [] => literalTriple s
  | s, .literal c :: ss => triplesOf (s ++ [c]) ss
  | s, .item name fmt :: ss => literalTriple s ++ ([name], fmt.getD [], 1) :: triplesOf [] ss

theorem PatternScan.flush_eq (x : PatternScan) :
    x.flush = ⟨x.vec ++ literalTriple x.nstr, [], x.error⟩ := by
  obtain ⟨vec, nstr, error⟩ := x
  unfold PatternScan.flush literalTriple
  by_cases h : nstr = [] <;> simp [h]

theorem getElem?_of_drop {p q : Text} {i : ℕ} {c : Char} (h : p.drop i = c :: q) :
    p[i]? = some c := by
  have := congrArg (·[0]?) h
  simpa using this

theorem getElem?_next {p q : Text} {i : ℕ} {c : Char} (h : p.drop i = c :: q) :
    p[i + 1]? = q.head? := by
  have := congrArg (·[1]?) h
  simpa [List.head?_eq_getElem?] using this

theorem patternLoop_cons {pattern q : Text} {fuel i : ℕ} {c : Char} {x : PatternScan}
    (h : pattern.drop i = c :: q) : patternLoop pattern (fuel + 1) i x =
      patternLoop pattern fuel (patternTurn pattern i c x).2 (patternTurn pattern i c x).1 := by
  rw [patternLoop, getElem?_of_drop h]

/-- A round of the outer loop, with fuel left for what stands behind the character. -/
theorem patternLoop_step {pattern q : Text} {fuel i : ℕ} {c : Char} (x : PatternScan)
    (h : pattern.drop i = c :: q) (hf : (c :: q).length ≤ fuel) : ∃ k, q.length ≤ k ∧
      patternLoop pattern fuel i x =
        patternLoop pattern k (patternTurn pattern i c x).2 (patternTurn pattern i c x).1 := by
  cases fuel with
  | zero => cases hf
  | succ k => exact ⟨k, Nat.le_of_succ_le_succ hf, patternLoop_cons h⟩

theorem patternTurn_literal {pattern : Text} {i : ℕ} {c : Char} {x : PatternScan} (hc : c ≠ '%') :
    patternTurn pattern i c x = (⟨x.vec, x.nstr ++ [c], x.error⟩, i + 1) := by
  rw [patternTurn, if_pos hc]

theorem patternTurn_percent {pattern q : Text} {i : ℕ} {x : PatternScan}
    (h : pattern.drop i = '%' :: '%' :: q) :
    patternTurn pattern i '%' x = (⟨x.vec, x.nstr ++ ['%'], x.error⟩, i + 1) := by
  rw [patternTurn, if_neg (by simp), if_pos (by rw [getElem?_next h]; rfl)]

theorem patternTurn_item {pattern q str fmt : Text} {i n b : ℕ} {x : PatternScan}
    (hq : q.head? ≠ some '%') (h : pattern.drop i = '%' :: q)
    (hy : scanItem pattern i = ⟨n, str, fmt, false, b⟩) :
    patternTurn pattern i '%' x =
      (⟨x.vec ++ literalTriple x.nstr ++ [(str, fmt, 1)], [], x.error⟩, n) := by
  rw [patternTurn, if_neg (by simp), if_neg (by rwa [getElem?_next h]), hy]
  simp [PatternScan.flush_eq]

theorem patternTurn_open {pattern q : Text} {i : ℕ} {x : PatternScan} (hq : q.head? ≠ some '%')
    (h : pattern.drop i = '%' :: q) (hy : (scanItem pattern i).fmtStatus = true) :
    (patternTurn pattern i '%' x).1.error = true := by
  rw [patternTurn, if_neg (by simp), if_neg (by rwa [getElem?_next h])]
  simp [hy]

theorem inName_of_itemOf {name : Char} (h : (itemOf name).isSome) : inName name := by
  have hkeys : ∀ e ∈ itemTable, inName e.1 = true := by decide
  by_contra hc
  have hnone : itemOf name = none := by
    refine List.lookup_eq_none_iff.mpr fun e he => ?_
    rw [bne_iff_ne]
    rintro rfl
    exact hc (hkeys e he)
  rw [hnone] at h
  contradiction

theorem ne_percent_of_itemOf {name : Char} (h : (itemOf name).isSome) : name ≠ '%' := by
  rintro rfl
  exact absurd (inName_of_itemOf h) (by decide)

/-- The triples that the outer loop makes of a text of the grammar. -/
theorem patternLoop_parses {pattern p : Text} {ss : List Segment} (hs : Parses p ss) {fuel i : ℕ}
    {x : PatternScan} (hp : pattern.drop i = p) (hf : p.length ≤ fuel) :
    (patternLoop pattern fuel i x).flush = ⟨x.vec ++ triplesOf x.nstr ss, [], x.error⟩ := by
  induction hs generalizing fuel i x with
  | nil =>
    have hi : pattern[i]? = none := by
      rw [List.getElem?_eq_none_iff]; exact List.drop_eq_nil_iff.mp hp
    have hl : patternLoop pattern fuel i x = x := by
      cases fuel with
      | zero => rfl
      | succ => rw [patternLoop, hi]
    rw [hl, PatternScan.flush_eq]
    rfl
  | literal hc _ ih =>
    obtain ⟨k, hk, he⟩ := patternLoop_step x hp hf
    rw [he, patternTurn_literal hc, ih (drop_succ hp).1 hk]
    rfl
  | percent _ ih =>
    obtain ⟨k, hk, he⟩ := patternLoop_step x hp hf
    rw [he, patternTurn_percent hp, ih (drop_succ hp).1 hk]
    rfl
  | @bare name p ss hname he _ ih =>
    obtain ⟨k, hk, hl⟩ := patternLoop_step x hp hf
    have hd : pattern.drop (i + 1) = [name] ++ p := (drop_succ hp).1
    have hy := scanItem_bare (by simpa using inName_of_itemOf hname) he hd
    have hr : pattern.drop (i + 1 + [name].length) = p := by
      rw [← List.drop_drop, hd, List.drop_left]
    rw [hl, patternTurn_item (by simpa using ne_percent_of_itemOf hname) hp hy,
      ih hr (Nat.le_of_succ_le hk)]
    simp [triplesOf]
  | @braced name fmt p ss hname hfmt _ ih =>
    obtain ⟨k, hk, hl⟩ := patternLoop_step x hp hf
    have hd : pattern.drop (i + 1) = [name] ++ '{' :: (fmt ++ '}' :: p) := (drop_succ hp).1
    obtain ⟨b, hy⟩ := scanItem_closed (by simpa using inName_of_itemOf hname) hfmt hd
    rw [hl, patternTurn_item (by simpa using ne_percent_of_itemOf hname) hp hy,
      ih (drop_braced hd) (by simp at hk; omega)]
    simp [triplesOf]

/-- The locals from which the parser can only throw. -/
def PatternScan.Bad (x : PatternScan) : Prop :=
  x.error = true ∨ ∃ t ∈ x.vec, t.2.2 ≠ 0 ∧ formatItems.lookup t.1 = none

theorem PatternScan.Bad.mono {x y : PatternScan} (h : x.Bad) (he : x.error = true → y.error = true)
    (hv : ∀ t ∈ x.vec, t ∈ y.vec) : y.Bad :=
  h.imp he fun ⟨t, ht, h⟩ => ⟨t, hv t ht, h⟩

theorem PatternScan.Bad.flush {x : PatternScan} (h : x.Bad) : x.flush.Bad := by
  rw [PatternScan.flush_eq]
  exact h.mono id fun t ht => by simp [ht]

theorem PatternScan.Bad.turn {pattern : Text} {i : ℕ} {c : Char} {x : PatternScan} (h : x.Bad) :
    (patternTurn pattern i c x).1.Bad := by
  unfold patternTurn
  split
  · exact h
  · split
    · exact h
    · simp only
      split
      · rw [PatternScan.flush_eq]
        exact h.mono id fun t ht => by simp [ht]
      · exact .inl rfl

theorem PatternScan.Bad.loop {pattern : Text} {fuel i : ℕ} {x : PatternScan} (h : x.Bad) :
    (patternLoop pattern fuel i x).Bad := by
  induction fuel generalizing i x with
  | zero => exact h
  | succ fuel ih =>
    unfold patternLoop
    split
    · exact h
    · exact ih h.turn

/-- A triple of an unknown name. -/
theorem PatternScan.bad_of_unknown {vec : List (Text × Text × ℕ)} {w fmt : Text} {e : Bool}
    (h : formatItems.lookup w = none) : PatternScan.Bad ⟨vec ++ [(w, fmt, 1)], [], e⟩ :=
  .inr ⟨(w, fmt, 1), by simp, by simp, h⟩

/-- Of a text outside the grammar the outer loop makes locals from which the parser throws. -/
theorem patternLoop_bad {pattern : Text} {fuel i : ℕ} {x : PatternScan}
    (hs : ∀ ss, ¬ Parses (pattern.drop i) ss) (hf : pattern.length - i ≤ fuel) :
    (patternLoop pattern fuel i x).Bad := by
  induction fuel generalizing i x with
  | zero =>
    have : pattern.drop i = [] := List.drop_eq_nil_iff.mpr (by omega)
    exact absurd (this ▸ Parses.nil) (hs [])
  | succ fuel ih =>
    cases hp : pattern.drop i with
    | nil => exact absurd (hp ▸ Parses.nil) (hs [])
    | cons c q =>
      obtain ⟨hd, hlt, -⟩ := drop_succ hp
      rw [hp] at hs
      rw [patternLoop_cons hp]
      by_cases hc : c = '%'
      · subst hc
        by_cases hq : q.head? = some '%'
        · -- two in a row: the text from the second on is outside the grammar too
          obtain ⟨q, rfl⟩ := List.head?_eq_some_iff.mp hq
          rw [patternTurn_percent hp]
          exact ih (fun ss h => hs _ (.percent (hd ▸ h))) (by omega)
        · obtain ⟨w, hw, ⟨r, hr, rfl⟩ | ⟨fmt, r, hfmt, rfl⟩ | ⟨r, hr, rfl⟩⟩ := item_cases q
          · rw [patternTurn_item hq hp (scanItem_bare hw hr hd)]
            cases hk : formatItems.lookup w with
            | none => exact (PatternScan.bad_of_unknown hk).loop
            | some =>
              -- a known name: what is left is outside the grammar too
              obtain ⟨name, rfl, hi⟩ := known_of_lookup hk
              have hrest : pattern.drop (i + 1 + [name].length) = r := by
                rw [← List.drop_drop, hd, List.drop_left]
              refine ih (fun ss h => hs _ (.bare hi hr (hrest ▸ h))) ?_
              simp
              omega
          · obtain ⟨b, hy⟩ := scanItem_closed hw hfmt hd
            rw [patternTurn_item hq hp hy]
            cases hk : formatItems.lookup w with
            | none => exact (PatternScan.bad_of_unknown hk).loop
            | some =>
              obtain ⟨name, rfl, hi⟩ := known_of_lookup hk
              have hrest := drop_braced hd
              refine ih (fun ss h => hs _ (.braced hi hfmt (hrest ▸ h))) ?_
              simp
              omega
          · exact PatternScan.Bad.loop (.inl (patternTurn_open hq hp (scanItem_open hw hr hd)))
      · rw [patternTurn_literal hc]
        exact ih (fun ss h => hs _ (.literal hc (hd ▸ h))) (by omega)

/-! ## The items -/

theorem makeItems_append (vec vec' : List (Text × Text × ℕ)) (items : List FormatItem) (e : Bool) :
    makeItems (vec ++ vec') items e =
      makeItems vec' (makeItems vec items e).1 (makeItems vec items e).2 := by
  induction vec generalizing items e with
  | nil => rfl
  | cons t vec ih =>
    obtain ⟨str, fmt, type⟩ := t
    rw [List.cons_append, makeItems, makeItems]
    split
    · rw [ih]
    · split
      · rw [ih]
      · rw [ih]

theorem makeItems_literal (s : Text) (items : List FormatItem) (e : Bool) :
    makeItems (literalTriple s) items e = (items ++ literalItem s, e) := by
  unfold literalTriple literalItem
  by_cases h : s = [] <;> simp [h, makeItems]

theorem makeItems_item {name : Char} (h : (itemOf name).isSome) (fmt : Text)
    (vec : List (Text × Text × ℕ)) (items : List FormatItem) (e : Bool) :
    makeItems (([name], fmt, 1) :: vec) items e =
      makeItems vec (items ++ (itemOf name).toList) e := by
  obtain ⟨x, hx⟩ := Option.isSome_iff_exists.mp h
  simp [makeItems, lookup_formatItems_single, hx]

/-- The items of the triples of segments. -/
theorem makeItems_parses {p : Text} {ss : List Segment} (hs : Parses p ss) (s : Text)
    (items : List FormatItem) (e : Bool) :
    makeItems (triplesOf s ss) items e = (items ++ madeItems s ss, e) := by
  induction hs generalizing s items with
  | nil => exact makeItems_literal s items e
  | literal _ _ ih => exact ih _ _
  | percent _ ih => exact ih _ _
  | bare hk _ _ ih =>
    rw [triplesOf, makeItems_append, makeItems_literal, makeItems_item hk, ih, madeItems_item]
    simp
  | braced hk _ _ ih =>
    rw [triplesOf, makeItems_append, makeItems_literal, makeItems_item hk, ih, madeItems_item]
    simp

theorem makeItems_error (vec : List (Text × Text × ℕ)) (items : List FormatItem) :
    (makeItems vec items true).2 = true := by
  induction vec generalizing items with
  | nil => rfl
  | cons t vec ih =>
    obtain ⟨str, fmt, type⟩ := t
    rw [makeItems]
    split
    · exact ih _
    · split
      · exact ih _
      · exact ih _

theorem makeItems_bad {x : PatternScan} (h : x.Bad) (items : List FormatItem) :
    (makeItems x.vec items x.error).2 = true := by
  rcases h with he | ⟨⟨str, fmt, type⟩, ht, hty, hk⟩
  · rw [he]
    exact makeItems_error _ _
  · obtain ⟨l, r, hv⟩ := List.append_of_mem ht
    rw [hv, makeItems_append, makeItems, if_neg hty, hk]
    exact makeItems_error _ _

/-! ## The parser -/

theorem initPattern_parses {pattern : Text} {ss : List Segment} (hs : Parses pattern ss)
    (items : List FormatItem) :
    initPattern pattern items = (.ok true, items ++ madeItems [] ss) := by
  have hp : parse pattern = ⟨triplesOf [] ss, [], false⟩ :=
    patternLoop_parses hs List.drop_zero le_rfl
  unfold initPattern
  simp only [hp, makeItems_parses hs]
  rfl

theorem initPattern_throws {pattern : Text} (hs : ∀ ss, ¬ Parses pattern ss)
    (items : List FormatItem) : (initPattern pattern items).1 = .error pattern := by
  have hp : (parse pattern).Bad := (patternLoop_bad (by rwa [List.drop_zero]) (by omega)).flush
  unfold initPattern
  simp only
  rw [if_pos (makeItems_bad hp items)]

/-- The patterns that are accepted, whatever the items so far, are those of the grammar. -/
theorem initPattern_ok_iff {pattern : Text} {items : List FormatItem} :
    (initPattern pattern items).1 = .ok true ↔ ∃ ss, Parses pattern ss := by
  constructor
  · intro h
    by_contra hs
    rw [initPattern_throws (not_exists.mp hs)] at h
    cases h
  · rintro ⟨ss, hs⟩
    rw [initPattern_parses hs]

theorem accepted_iff {pattern : Text} : Accepted pattern ↔ ∃ ss, Parses pattern ss :=
  initPattern_ok_iff

/-- The parser accepts the pattern exactly if it is a text of segments, and appends the items of these
segments; otherwise it throws. -/
structure ReadsSegments (pattern : Text) (items : List FormatItem) : Prop where
  accepts : (initPattern pattern items).1 = .ok true ↔ ∃ ss, Segments pattern ss
  appends : ∀ ss, Segments pattern ss → (initPattern pattern items).2 = items ++ itemsOf ss
  throws : (¬ ∃ ss, Segments pattern ss) → (initPattern pattern items).1 = .error pattern

/-- **The parser reads exactly the texts of segments**, and appends the items of the segments, with
adjacent literal characters in one item, exactly if no date names another format than the default
one; on every other text it throws. -/
theorem initPattern_exact (pattern : Text) (hn : NoEscape pattern) (items : List FormatItem) :
    (ReadsSegments pattern items ↔ ∀ ss, Segments pattern ss → DefaultDates ss) ∧
      ((initPattern pattern items).1 = .ok true ↔ ∃ ss, Segments pattern ss) ∧
      (∀ ss, Segments pattern ss → (initPattern pattern items).2 = items ++ madeItems [] ss ∧
        ((initPattern pattern items).2 = items ++ itemsOf ss ↔ DefaultDates ss)) ∧
      ((¬ ∃ ss, Segments pattern ss) → (initPattern pattern items).1 = .error pattern) := by
  have haccepts : (initPattern pattern items).1 = .ok true ↔ ∃ ss, Segments pattern ss := by
    simp only [← parses_iff_segments hn]
    exact initPattern_ok_iff
  have hmade (ss : List Segment) (hs : Segments pattern ss) :
      (initPattern pattern items).2 = items ++ madeItems [] ss := by
    rw [initPattern_parses ((parses_iff_segments hn).mpr hs)]
  have happends (ss : List Segment) (hs : Segments pattern ss) :
      (initPattern pattern items).2 = items ++ itemsOf ss ↔ DefaultDates ss := by
    rw [hmade ss hs, List.append_cancel_left_eq, madeItems_eq_iff]
  have hthrows (h : ¬ ∃ ss, Segments pattern ss) :
      (initPattern pattern items).1 = .error pattern := by
    simp only [← parses_iff_segments hn] at h
    exact initPattern_throws (not_exists.mp h) items
  refine ⟨⟨fun h ss hs => (happends ss hs).mp (h.appends ss hs), fun h => ?_⟩, haccepts,
    fun ss hs => ⟨hmade ss hs, happends ss hs⟩, hthrows⟩
  exact ⟨haccepts, fun ss hs => (happends ss hs).mpr (h ss hs), hthrows⟩

/-- Empty braces name the default format. -/
theorem initPattern_exact_time :
    NoEscape ['[', '%', 'd', '{', '}', ']', ' ', '%', 'm', '%', 'n'] ∧
    (initPattern ['[', '%', 'd', '{', '}', ']', ' ', '%', 'm', '%', 'n'] []).2 =
      itemsOf [.literal '[', .item 'd' (some []), .literal ']', .literal ' ', .item 'm' none,
        .item 'n' none] := by
  have hn : NoEscape ['[', '%', 'd', '{', '}', ']', ' ', '%', 'm', '%', 'n'] := by decide
  have hs : Segments ['[', '%', 'd', '{', '}', ']', ' ', '%', 'm', '%', 'n']
      [.literal '[', .item 'd' (some []), .literal ']', .literal ' ', .item 'm' none,
        .item 'n' none] :=
    .literal (by decide) (@Segments.braced _ [] _ _ (by decide) (by decide)
      (.literal (by decide) (.literal (by decide) (.bare (by decide) (by simp [EndsName])
        (.bare (by decide) (by simp [EndsName]) .nil)))))
  refine ⟨hn, ((initPattern_exact _ hn []).2.2.1 _ hs).2.mpr fun fmt hmem hne => ?_⟩
  simp [hne] at hmem

/-- The format of a date is dropped: of `"%d{%H}"` the date in the default format is appended. -/
theorem initPattern_drops_format :
    NoEscape ['%', 'd', '{', '%', 'H', '}'] ∧
    Segments ['%', 'd', '{', '%', 'H', '}'] [.item 'd' (some ['%', 'H'])] ∧
    itemsOf [.item 'd' (some ['%', 'H'])] = [.dateTime ['%', 'H']] ∧
    (initPattern ['%', 'd', '{', '%', 'H', '}'] []).2 =
      [.dateTime "%Y-%m-%d %H:%M:%S".toList] ∧
    ¬ ReadsSegments ['%', 'd', '{', '%', 'H', '}'] [] := by
  have hs : Segments ['%', 'd', '{', '%', 'H', '}'] [.item 'd' (some ['%', 'H'])] :=
    @Segments.braced _ ['%', 'H'] _ _ (by decide) (by decide) .nil
  refine ⟨by decide, hs, by decide, by decide, fun h => ?_⟩
  have happ := h.appends _ hs
  revert happ
  decide

end LogFormatter

end Ddg
