import DdgServer.Log.Format

/-!
# New patterns

The two ways to give a new pattern to what there is: `LogFormatter::setPattern` and
`Logger::setFormatter(const std::string&)`, from `ddg/log.cc`.

* `added`: the items that the parser appends, also where it throws; without a text there are none.
* `setPattern_exact`: `setPattern` appends to the items that are there and keeps the old text, so it
  is right only where all texts so far were empty.
* `setFormatter_exact`: `setFormatter` hands the old formatter on, so it is right only where that is
  already the formatter of the pattern.
-/

namespace Ddg

namespace LogFormatter

/-- `LogFormatter::setPattern`; where `initPattern` throws, it has appended to the items. -/
def setPattern (f : LogFormatter) (pattern : Text) : Except Text Bool × LogFormatter :=
  match initPattern pattern f.items with
  | (.error e, items) => (.error e, { f with items })
  | (.ok valid, items) => (.ok valid, { f with items, error := !valid })

/-- The formatter after calls of `setPattern`, each of which may have thrown. -/
def afterPatterns (f : LogFormatter) (ps : List Text) : LogFormatter :=
  ps.foldl (fun f p => (f.setPattern p).2) f

/-- Two formatters print the same, for every event. -/
def SameFormat (f g : LogFormatter) : Prop := ∀ strftime logger level event,
  format strftime f logger level event = format strftime g logger level event

/-- `setPattern p` gives the formatter of `p`, or changes nothing if there is none. -/
structure Replaces (f : LogFormatter) (p : Text) : Prop where
  valid : Accepted p → (∃ g, new p = .ok g ∧ SameFormat (f.setPattern p).2 g) ∧
    (f.setPattern p).2.pattern = p ∧ (f.setPattern p).2.error = false
  invalid : ¬ Accepted p → SameFormat (f.setPattern p).2 f ∧
    (f.setPattern p).2.pattern = f.pattern ∧ (f.setPattern p).2.error = f.error

/-! ## The items that the parser appends -/

/-- The item of a triple. -/
def tripleItem (t : Text × Text × ℕ) : FormatItem :=
  if t.2.2 = 0 then .string t.1
  else ((formatItems.lookup t.1).map fun make => make t.2.1).getD
    (.string ("<<error_format %".toList ++ t.1 ++ ">>".toList))

theorem makeItems_eq (vec : List (Text × Text × ℕ)) (items : List FormatItem) (e : Bool) :
    makeItems vec items e = (items ++ vec.map tripleItem, (makeItems vec [] e).2) := by
  have hfst (vec : List (Text × Text × ℕ)) : ∀ (items : List FormatItem) (e : Bool),
      (makeItems vec items e).1 = items ++ vec.map tripleItem := by
    induction vec with
    | nil => simp [makeItems]
    | cons t vec ih =>
      intro items e
      obtain ⟨str, fmt, type⟩ := t
      rw [makeItems]
      split
      · rename_i ht
        simp [ih, tripleItem, ht]
      · rename_i ht
        split
        · rename_i hl
          simp [ih, tripleItem, ht, hl]
        · rename_i make hl
          simp [ih, tripleItem, ht, hl]
  have hsnd (vec : List (Text × Text × ℕ)) : ∀ (items items' : List FormatItem) (e : Bool),
      (makeItems vec items e).2 = (makeItems vec items' e).2 := by
    induction vec with
    | nil => exact fun _ _ _ => rfl
    | cons t vec ih =>
      intro items items' e
      obtain ⟨str, fmt, type⟩ := t
      rw [makeItems, makeItems]
      split
      · exact ih _ _ _
      · split
        · exact ih _ _ _
        · exact ih _ _ _
  rw [← hfst vec items e, ← hsnd vec items [] e]

/-- The items that the parser appends for a pattern. -/
def added (p : Text) : List FormatItem := (parse p).vec.map tripleItem

theorem initPattern_eq (p : Text) (items : List FormatItem) :
    initPattern p items = (checkValid p, items ++ added p) := by
  unfold checkValid initPattern
  simp only [makeItems_eq _ items]
  rfl

/-- No triple has an empty text. -/
def PatternScan.Solid (x : PatternScan) : Prop := ∀ t ∈ x.vec, t.2.2 = 0 → t.1 ≠ []

/-- Something has been read. -/
def PatternScan.Begun (x : PatternScan) : Prop := x.vec ≠ [] ∨ x.nstr ≠ []

theorem PatternScan.Solid.append {x : PatternScan} (h : x.Solid) {t : Text × Text × ℕ}
    (ht : t.2.2 = 0 → t.1 ≠ []) {nstr : Text} {e : Bool} :
    PatternScan.Solid ⟨x.vec ++ [t], nstr, e⟩ := by
  intro u hu
  rcases List.mem_append.mp hu with hu | hu
  · exact h u hu
  · exact List.mem_singleton.mp hu ▸ ht

theorem PatternScan.Solid.flush {x : PatternScan} (h : x.Solid) : x.flush.Solid := by
  unfold PatternScan.flush
  split
  · exact h
  · rename_i hn
    exact h.append fun _ => hn

theorem PatternScan.Solid.turn {x : PatternScan} (h : x.Solid) (pattern : Text) (i : ℕ) (c : Char) :
    (patternTurn pattern i c x).1.Solid := by
  unfold patternTurn
  split
  · exact h
  · split
    · exact h
    · simp only
      split
      · exact h.flush.append fun ht => absurd ht (by simp)
      · exact h.append fun _ => by simp

theorem PatternScan.begun_turn (pattern : Text) (i : ℕ) (c : Char) (x : PatternScan) :
    (patternTurn pattern i c x).1.Begun := by
  unfold patternTurn
  split
  · exact .inr (by simp)
  · split
    · exact .inr (by simp)
    · simp only
      split
      · exact .inl (by simp)
      · exact .inl (by simp)

theorem PatternScan.Solid.loop {pattern : Text} {fuel i : ℕ} {x : PatternScan} (h : x.Solid) :
    (patternLoop pattern fuel i x).Solid := by
  induction fuel generalizing i x with
  | zero => exact h
  | succ fuel ih =>
    unfold patternLoop
    split
    · exact h
    · exact ih (h.turn pattern i _)

theorem PatternScan.Begun.loop {pattern : Text} {fuel i : ℕ} {x : PatternScan} (h : x.Begun) :
    (patternLoop pattern fuel i x).Begun := by
  induction fuel generalizing i x with
  | zero => exact h
  | succ fuel ih =>
    unfold patternLoop
    split
    · exact h
    · exact ih (PatternScan.begun_turn pattern i _ x)

theorem PatternScan.Begun.flush {x : PatternScan} (h : x.Begun) : x.flush.vec ≠ [] := by
  unfold PatternScan.flush
  split
  · rename_i hn
    exact h.resolve_right (not_not.mpr hn)
  · simp

theorem solid_parse (p : Text) : (parse p).Solid :=
  (PatternScan.Solid.loop fun _ ht => absurd ht List.not_mem_nil).flush

@[simp] theorem added_eq_nil {p : Text} : added p = [] ↔ p = [] := by
  constructor
  · intro h
    cases p with
    | nil => rfl
    | cons c p =>
      have hbegun : (patternLoop (c :: p) (c :: p).length 0 {}).Begun := by
        rw [List.length_cons, patternLoop_cons (c := c) (q := p) rfl]
        exact (PatternScan.begun_turn _ _ _ _).loop
      exact absurd (List.map_eq_nil_iff.mp h) hbegun.flush
  · rintro rfl
    rfl

/-- Each item that the parser appends prints something for the event of `markEvent`. -/
theorem marked_added {p : Text} {x : FormatItem} (hx : x ∈ added p) : marked x ≠ [] := by
  obtain ⟨⟨str, fmt, type⟩, ht, rfl⟩ := List.mem_map.mp hx
  unfold tripleItem
  split
  · rename_i hty
    exact solid_parse p _ ht hty
  · cases hl : formatItems.lookup str with
    | none => exact List.append_ne_nil_of_right_ne_nil _ (by decide)
    | some make =>
      obtain ⟨c, rfl, hi⟩ := known_of_lookup hl
      rw [lookup_formatItems_single] at hl
      obtain ⟨y, hy, rfl⟩ := Option.map_eq_some_iff.mp hl
      obtain ⟨d, r, hd, -⟩ := marked_itemOf hy
      rw [Option.map_some, Option.getD_some, hd]
      exact List.cons_ne_nil d r

/-! ## `setPattern` -/

section SetPattern

variable {f : LogFormatter} {p p₀ : Text} {ps : List Text}

theorem setPattern_accepted (f : LogFormatter) (h : Accepted p) :
    f.setPattern p = (.ok true, ⟨f.pattern, f.items ++ added p, false⟩) := by
  unfold Accepted at h
  simp only [setPattern, initPattern_eq, h]
  rfl

theorem setPattern_rejected (f : LogFormatter) (h : ¬ Accepted p) :
    f.setPattern p = (.error p, { f with items := f.items ++ added p }) := by
  simp only [setPattern, initPattern_eq, (checkValid_cases p).resolve_left h]

theorem new_eq (h : Accepted p) : new p = .ok ⟨p, added p, false⟩ := by
  rw [new_accepted h, initPattern_eq, List.nil_append]

/-- Whatever a call reports, it appends its items and keeps the text and, without an error so far,
the flag. -/
theorem setPattern_snd (hf : f.error = false) (p : Text) :
    (f.setPattern p).2 = ⟨f.pattern, f.items ++ added p, false⟩ := by
  by_cases h : Accepted p
  · rw [setPattern_accepted f h]
  · rw [setPattern_rejected f h, ← hf]

theorem afterPatterns_eq (hf : f.error = false) (ps : List Text) :
    f.afterPatterns ps = ⟨f.pattern, f.items ++ ps.flatMap added, false⟩ := by
  induction ps generalizing f with
  | nil =>
    rw [← hf]
    simp [afterPatterns]
  | cons p ps ih =>
    change (f.setPattern p).2.afterPatterns ps = _
    rw [setPattern_snd hf, ih rfl]
    simp

/-- The formatters that there are, with the patterns that they were given. -/
theorem reached_eq {f₀ : LogFormatter} (h : new p₀ = .ok f₀) (ps : List Text) :
    f₀.afterPatterns ps = ⟨p₀, (p₀ :: ps).flatMap added, false⟩ := by
  have ha : Accepted p₀ := by
    by_contra hn
    rw [new_rejected hn] at h
    cases h
  cases (new_eq ha).symm.trans h
  exact afterPatterns_eq rfl ps

/-- Formatters that differ in what they were given before print different texts for some event. -/
theorem eq_nil_of_sameFormat {items : List FormatItem} (qs : List Text) {f g : LogFormatter}
    (hf : f.items = items ++ qs.flatMap added ∨ f.items = qs.flatMap added ++ items)
    (hg : g.items = items) (h : SameFormat f g) : ∀ q ∈ qs, q = [] := by
  have heq := h (fun _ _ => ['!']) (Logger.new []) 1 markEvent
  have hlen := congrArg List.length heq
  have hzero : ((qs.flatMap added).flatMap marked).length = 0 := by
    unfold format at hlen
    rcases hf with hf | hf
    · rw [hf, hg, List.flatMap_append, List.length_append] at hlen
      exact Nat.add_left_cancel hlen
    · rw [hf, hg, List.flatMap_append, List.length_append, Nat.add_comm] at hlen
      exact Nat.add_left_cancel hlen
  intro q hq
  rw [← added_eq_nil]
  by_contra hne
  obtain ⟨x, hx⟩ := List.exists_mem_of_ne_nil _ hne
  have hmarked := List.flatMap_eq_nil_iff.mp (List.length_eq_zero_iff.mp hzero) x
    (List.mem_flatMap.mpr ⟨q, hq, hx⟩)
  exact marked_added hx hmarked

/-- **`setPattern` replaces the pattern** exactly if that is empty and so were all patterns that the
formatter was given before. -/
theorem setPattern_exact {f₀ : LogFormatter} (h : new p₀ = .ok f₀) :
    Replaces (f₀.afterPatterns ps) p ↔ p₀ = [] ∧ (∀ q ∈ ps, q = []) ∧ p = [] := by
  rw [reached_eq h ps]
  set f : LogFormatter := ⟨p₀, (p₀ :: ps).flatMap added, false⟩ with hf
  constructor
  · rintro ⟨hvalid, hinvalid⟩
    by_cases ha : Accepted p
    · obtain ⟨⟨g, hg, hsame⟩, hpattern, -⟩ := hvalid ha
      cases (new_eq ha).symm.trans hg
      rw [setPattern_accepted f ha] at hsame hpattern
      have hnil := eq_nil_of_sameFormat (p₀ :: ps) (.inr rfl) rfl hsame
      obtain rfl : p₀ = p := hpattern
      exact ⟨hnil p₀ (by simp), fun q hq => hnil q (by simp [hq]), hnil p₀ (by simp)⟩
    · obtain ⟨hsame, -⟩ := hinvalid ha
      rw [setPattern_rejected f ha] at hsame
      obtain rfl := eq_nil_of_sameFormat [p] (.inl (by simp)) rfl hsame p (by simp)
      exact absurd (by decide) ha
  · rintro ⟨rfl, hps, rfl⟩
    have ha : Accepted [] := by decide
    have hitems : f.items = [] := by
      rw [hf, List.flatMap_eq_nil_iff]
      intro q hq
      rcases List.mem_cons.mp hq with rfl | hq
      · simp
      · simp [hps q hq]
    refine ⟨fun _ => ?_, fun hn => absurd ha hn⟩
    rw [setPattern_accepted f ha, hitems]
    exact ⟨⟨_, new_eq ha, fun _ _ _ _ => rfl⟩, rfl, rfl⟩

theorem setPattern_exact_empty : ∃ f, new [] = .ok f ∧ Replaces (f.afterPatterns [[], []]) [] :=
  ⟨⟨[], [], false⟩, by decide,
    (setPattern_exact (by decide)).mpr ⟨rfl, by simp, rfl⟩⟩

/-- The formatter of `"%m"` keeps its text with `"%p"`, and prints what it could read of `"%"`. -/
theorem setPattern_appends : ∃ f, new ['%', 'm'] = .ok f ∧
    ¬ Replaces f ['%', 'p'] ∧ ¬ Replaces f ['%'] := by
  refine ⟨⟨['%', 'm'], [.message], false⟩, by decide, fun h => ?_, fun h => ?_⟩
  · have hpattern := (h.valid (by decide)).2.1
    revert hpattern
    decide
  · have hsame := (h.invalid (by decide)).1 (fun _ _ => []) (Logger.new []) 1 markEvent
    revert hsame
    decide

end SetPattern

end LogFormatter

/-! ## `Logger::setFormatter` -/

namespace Logger

/-- `Logger::delAppender`; the identities are the pointers. -/
def delAppender (g : Logger) (id : ℕ) : Logger :=
  { g with appenders := g.appenders.filter fun i => i.id ≠ id }

/-- A later call that is not `setFormatter`. -/
inductive Op where
  | addAppender (appender : LogAppender)
  | delAppender (id : ℕ)
  | clearAppender
  | setLevel (level : ℕ)
  | setRoot (root : ℕ)

def apply (g : Logger) : Op → Logger
  | .addAppender appender => g.addAppender appender
  | .delAppender id => g.delAppender id
  | .clearAppender => g.clearAppender
  | .setLevel level => g.setLevel level
  | .setRoot root => g.setRoot root

/-- The appender has the formatter of the pattern. -/
def Uses (a : LogAppender) (pattern : Text) : Prop :=
  ∃ f, a.formatter = some f ∧ LogFormatter.new pattern = .ok f

/-- The logger has the pattern, its appenders have the formatter of it, and so has an appender
without a formatter that is added later. -/
structure Sets (g : Logger) (pattern : Text) : Prop where
  own : g.formatter.pattern = pattern
  appenders : ∀ a ∈ g.appenders, Uses a pattern
  later : ∀ (ops : List Op) (a : LogAppender), a.formatter = none →
    ∀ b ∈ ((ops.foldl apply g).addAppender a).appenders.getLast?, Uses b pattern

/-- `setFormatter pattern` returns, and it sets the pattern or, if that is invalid, changes no
formatter. -/
def Obeys (g : Logger) (pattern : Text) : Prop := ∃ g', g.setFormatter pattern = some g' ∧
  (LogFormatter.Accepted pattern → g'.Sets pattern) ∧
  (¬ LogFormatter.Accepted pattern → g'.formatter = g.formatter ∧
    g'.appenders.map LogAppender.formatter = g.appenders.map LogAppender.formatter)

variable {g : Logger} {pattern : Text}

theorem apply_formatter (g : Logger) (op : Op) : (g.apply op).formatter = g.formatter := by
  cases op <;> rfl

theorem foldl_formatter (g : Logger) (ops : List Op) :
    (ops.foldl apply g).formatter = g.formatter := by
  induction ops generalizing g with
  | nil => rfl
  | cons op ops ih => rw [List.foldl_cons, ih, apply_formatter]

theorem added_formatter {a : LogAppender} (ha : a.formatter = none) :
    ∀ b ∈ (g.addAppender a).appenders.getLast?, b.formatter = some g.formatter := by
  intro b hb
  simp only [addAppender, ha, if_true, List.getLast?_concat, Option.mem_some_iff] at hb
  exact hb ▸ rfl

theorem sets_iff (ha : LogFormatter.Accepted pattern) :
    (g.setAppendersFormatter g.formatter).Sets pattern ↔ LogFormatter.new pattern = .ok g.formatter := by
  constructor
  · intro h
    have hlast : ((g.setAppendersFormatter g.formatter).addAppender
        ⟨0, .stdout, 0, none⟩).appenders.getLast? = some ⟨0, .stdout, 0, some g.formatter⟩ := by
      simp [addAppender, LogAppender.setFormatter, setAppendersFormatter]
    obtain ⟨f, hf, hnew⟩ := h.later [] ⟨0, .stdout, 0, none⟩ rfl _ hlast
    cases hf
    exact hnew
  · intro hnew
    refine ⟨?_, fun a ha => ?_, fun ops a ha b hb => ⟨g.formatter, ?_, hnew⟩⟩
    · have h := LogFormatter.new_accepted ha
      rw [hnew] at h
      exact congrArg LogFormatter.pattern (Except.ok.inj h)
    · obtain ⟨a, -, rfl⟩ := List.mem_map.mp ha
      exact ⟨g.formatter, rfl, hnew⟩
    · rw [added_formatter ha b hb, foldl_formatter]
      rfl

/-- **`setFormatter` does what it says** exactly if the formatter that the logger has is already the
one of the pattern. -/
theorem setFormatter_exact (g : Logger) (pattern : Text) :
    g.Obeys pattern ↔ LogFormatter.new pattern = .ok g.formatter := by
  by_cases ha : LogFormatter.Accepted pattern
  · rw [← sets_iff ha, Obeys, setFormatter_accepted ha]
    constructor
    · rintro ⟨g', hg', h, -⟩
      cases hg'
      exact h ha
    · exact fun h => ⟨_, rfl, fun _ => h, fun hn => absurd ha hn⟩
  · rw [Obeys, setFormatter_rejected ha, LogFormatter.new_rejected ha]
    constructor
    · rintro ⟨g', hg', -⟩
      cases hg'
    · intro h
      cases h

/-- The pattern of a new logger stays, and an invalid one throws. -/
theorem setFormatter_keeps :
    ¬ (Logger.new ['a']).Obeys ['%', 'm'] ∧ ¬ (Logger.new ['a']).Obeys ['%'] := by
  constructor
  · rintro ⟨g', hg', h, -⟩
    have ha : LogFormatter.Accepted ['%', 'm'] := by decide
    rw [setFormatter_accepted ha] at hg'
    cases hg'
    have hown := (h ha).own
    revert hown
    decide
  · rintro ⟨g', hg', -⟩
    rw [setFormatter_rejected (by decide)] at hg'
    cases hg'

end Logger

end Ddg
