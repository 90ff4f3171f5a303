import DdgServer.Log.Grammar
import DdgServer.Log.Logger

/-!
# Formatting an event

`LogFormatter::format` and the items' `format`, from `ddg/log.cc`. `strftime format time` stands for
what `localtime_r` and `strftime` make of a time.

* `output`: the output of segments as the code has it; `format_new`: it is that of the formatter
  made of them.
* `escape_exact`: which texts are printed as they are when each `'%'` in them is doubled.
* `dates_exact`: which patterns have their dates printed in the formats that they name.
-/

namespace Ddg

/-- A `LogEvent`; `content` is the text in `m_ss`. -/
structure LogEvent where
  logger : Logger
  file : Text
  line : ℤ
  elapse : ℕ
  threadId : ℕ
  fiberId : ℕ
  time : ℕ
  content : Text

/-- `os << n` of an unsigned number. -/
def decimal (n : ℕ) : Text := Nat.toDigits 10 n

/-- `os << z` of a signed number. -/
def signedDecimal (z : ℤ) : Text := if z < 0 then '-' :: decimal z.natAbs else decimal z.natAbs

section Format

variable (strftime : Text → ℕ → Text) (logger : Logger) (level : ℕ) (event : LogEvent)

/-- `FormatItem::format`, without its argument `logger`, which no item reads. -/
def FormatItem.format : FormatItem → Text
  | .string s => s
  | .message => event.content
  | .level => LogLevel.toString level
  | .elapse => decimal event.elapse
  | .name => event.logger.name
  | .threadId => decimal event.threadId
  | .newLine => ['\n']
  | .dateTime fmt => strftime fmt event.time
  | .filename => event.file
  | .line => signedDecimal event.line
  | .tab => ['\t']
  | .fiberId => decimal event.fiberId

namespace LogFormatter

/-- `LogFormatter::format`. -/
def format (f : LogFormatter) (_logger : Logger) (level : ℕ) (event : LogEvent) : Text :=
  f.items.flatMap (FormatItem.format strftime level event)

/-! ## The output of segments -/

/-- The output of a segment. -/
def Segment.output : Segment → Text
  | .literal c => [c]
  | .item name _ => (itemOf name).elim [] (FormatItem.format strftime level event)

/-- The output of segments. -/
def output (ss : List Segment) : Text := ss.flatMap (Segment.output strftime level event)

theorem format_madeItems (s : Text) (ss : List Segment) :
    (madeItems s ss).flatMap (FormatItem.format strftime level event) =
      s ++ output strftime level event ss := by
  have hlit (s : Text) :
      (literalItem s).flatMap (FormatItem.format strftime level event) = s := by
    unfold literalItem
    by_cases hs : s = [] <;> simp [hs, FormatItem.format]
  induction ss generalizing s with
  | nil => simp [output, hlit]
  | cons x ss ih =>
    cases x with
    | literal c => simp [ih, output, Segment.output]
    | item name fmt =>
      simp only [madeItems_item, List.flatMap_append, hlit, ih, List.append_assoc, output,
        List.flatMap_cons, Segment.output, List.nil_append]
      cases itemOf name <;> simp

/-- What the formatter of an accepted pattern prints. -/
theorem format_new {p : Text} {ss : List Segment} (h : Parses p ss) :
    new p = .ok ⟨p, madeItems [] ss, false⟩ ∧
      format strftime ⟨p, madeItems [] ss, false⟩ logger level event =
        output strftime level event ss := by
  constructor
  · rw [new_accepted (accepted_iff.mpr ⟨ss, h⟩), initPattern_parses h, List.nil_append]
  · rw [format, format_madeItems, List.nil_append]

end LogFormatter

end Format

namespace LogFormatter

/-! ## Doubled percent signs -/

/-- `s` with each `'%'` doubled. -/
def escape (s : Text) : Text := s.flatMap fun c => if c = '%' then ['%', '%'] else [c]

/-- The formatter of the doubled text is made, and it prints the text for every event. -/
def PrintsAsIs (s : Text) : Prop := ∃ f, new (escape s) = .ok f ∧
  ∀ strftime logger level event, format strftime f logger level event = s

theorem Parses.of_literal {c : Char} {p : Text} {ss : List Segment} (h : Parses (c :: p) ss)
    (hc : c ≠ '%') : ∃ ss', ss = .literal c :: ss' ∧ Parses p ss' := by
  cases h with
  | literal _ h => exact ⟨_, rfl, h⟩
  | percent _ => exact absurd rfl hc
  | bare _ _ _ => exact absurd rfl hc
  | braced _ _ _ => exact absurd rfl hc

theorem Parses.of_percent {p : Text} {ss : List Segment} (h : Parses ('%' :: '%' :: p) ss) :
    ∃ ss', ss = .literal '%' :: ss' ∧ Parses ('%' :: p) ss' := by
  cases h with
  | literal hc _ => exact absurd rfl hc
  | percent h => exact ⟨_, rfl, h⟩
  | bare hk _ _ => exact absurd rfl (ne_percent_of_itemOf hk)
  | braced hk _ _ => exact absurd rfl (ne_percent_of_itemOf hk)

/-- A `'%'` that no other follows begins an item. -/
theorem Parses.of_item {p : Text} {ss : List Segment} (h : Parses ('%' :: p) ss)
    (hp : p.head? ≠ some '%') : ∃ name x fmt ss', p.head? = some name ∧ itemOf name = some x ∧
      ss = .item name fmt :: ss' := by
  cases h with
  | literal hc _ => exact absurd rfl hc
  | percent _ => exact absurd rfl hp
  | bare hk _ _ =>
    obtain ⟨x, hx⟩ := Option.isSome_iff_exists.mp hk
    exact ⟨_, x, none, _, rfl, hx, rfl⟩
  | braced hk _ _ =>
    obtain ⟨x, hx⟩ := Option.isSome_iff_exists.mp hk
    exact ⟨_, x, _, _, rfl, hx, rfl⟩

/-- An event all of whose texts are `"!"`. -/
def markEvent : LogEvent :=
  ⟨{ Logger.new ['!'] with level := 1 }, ['!'], 0, 0, 0, 0, 0, ['!']⟩

/-- The output for that event, with `"!"` for every date. -/
def marked (x : FormatItem) : Text := x.format (fun _ _ => ['!']) 1 markEvent

/-- For that event, no item prints a text that begins with its own name. -/
theorem marked_itemOf {name : Char} {x : FormatItem} (h : itemOf name = some x) :
    ∃ d r, marked x = d :: r ∧ d ≠ name := by
  have htable : ∀ e ∈ itemTable, (marked e.2).head? ≠ none ∧ (marked e.2).head? ≠ some e.1 := by
    decide
  obtain ⟨l, r, hl, -⟩ := List.lookup_eq_some_iff.mp h
  obtain ⟨hnone, hname⟩ := htable (name, x) (by simp [hl])
  cases hm : marked x with
  | nil => exact absurd (by rw [hm]; rfl) hnone
  | cons d r =>
    refine ⟨d, r, rfl, ?_⟩
    rintro rfl
    exact hname (by rw [hm]; rfl)

/-- The output of segments for that event. -/
def markedOutput (ss : List Segment) : Text := output (fun _ _ => ['!']) 1 markEvent ss

theorem markedOutput_literal (c : Char) (ss : List Segment) :
    markedOutput (.literal c :: ss) = c :: markedOutput ss := rfl

theorem markedOutput_item {name : Char} {x : FormatItem} (h : itemOf name = some x)
    (fmt : Option Text) (ss : List Segment) :
    markedOutput (.item name fmt :: ss) = marked x ++ markedOutput ss := by
  unfold markedOutput output
  rw [List.flatMap_cons, Segment.output, h]
  rfl

theorem escape_cons_ne {c : Char} (hc : c ≠ '%') (s : Text) : escape (c :: s) = c :: escape s := by
  simp [escape, hc]

theorem escape_cons_percent (s : Text) : escape ('%' :: s) = '%' :: '%' :: escape s := by
  simp [escape]

/-- After the first of two `'%'`, too many are printed, or an item in place of its name. -/
theorem markedOutput_ne {s : Text} {ss : List Segment} (h : Parses ('%' :: escape s) ss) (j : ℕ) :
    List.replicate j '%' ++ markedOutput ss ≠ s := by
  induction s generalizing ss j with
  | nil =>
    obtain ⟨name, -, -, -, hname, -⟩ := h.of_item (by simp [escape])
    cases hname
  | cons c s ih =>
    by_cases hc : c = '%'
    · -- two of the three are printed, for the one of the text
      subst hc
      rw [escape_cons_percent] at h
      obtain ⟨ss₁, rfl, h₁⟩ := h.of_percent
      obtain ⟨ss₂, rfl, h₂⟩ := h₁.of_percent
      rw [markedOutput_literal, markedOutput_literal]
      intro he
      refine ih h₂ (j + 1) ?_
      rw [List.append_cons, List.append_cons, ← List.replicate_succ', ← List.replicate_succ',
        List.replicate_succ] at he
      exact (List.cons.inj he).2
    · rw [escape_cons_ne hc] at h
      obtain ⟨name, x, fmt, ss, hname, hx, rfl⟩ := h.of_item (by simpa using hc)
      obtain rfl : c = name := by simpa using hname
      obtain ⟨d, r, hd, hne⟩ := marked_itemOf hx
      rw [markedOutput_item hx, hd]
      cases j with
      | zero =>
        intro he
        exact hne (List.cons.inj he).1
      | succ j =>
        intro he
        exact hc (List.cons.inj he).1.symm

theorem parses_literals {s : Text} (h : '%' ∉ s) : Parses s (s.map .literal) := by
  induction s with
  | nil => exact .nil
  | cons c s ih =>
    rw [List.mem_cons, not_or] at h
    exact .literal (Ne.symm h.1) (ih h.2)

theorem escape_eq {s : Text} (h : '%' ∉ s) : escape s = s := by
  induction s with
  | nil => rfl
  | cons c s ih =>
    rw [List.mem_cons, not_or] at h
    rw [escape_cons_ne (Ne.symm h.1), ih h.2]

theorem output_literals (strftime : Text → ℕ → Text) (level : ℕ) (event : LogEvent) (s : Text) :
    output strftime level event (s.map .literal) = s := by
  induction s with
  | nil => rfl
  | cons c s ih => exact congrArg (c :: ·) ih

/-- The output of the formatter of a doubled text is not the text if it has a `'%'`. -/
theorem not_mem_of_markedOutput {s : Text} {ss : List Segment} (h : Parses (escape s) ss)
    (ho : markedOutput ss = s) : '%' ∉ s := by
  induction s generalizing ss with
  | nil => exact List.not_mem_nil
  | cons c s ih =>
    by_cases hc : c = '%'
    · subst hc
      rw [escape_cons_percent] at h
      obtain ⟨ss', rfl, h'⟩ := h.of_percent
      exact absurd (List.cons.inj ho).2 (markedOutput_ne h' 0)
    · rw [escape_cons_ne hc] at h
      obtain ⟨ss', rfl, h'⟩ := h.of_literal hc
      rw [List.mem_cons, not_or]
      exact ⟨Ne.symm hc, ih h' (List.cons.inj ho).2⟩

/-- **Doubling `'%'` is not an escape**: exactly the texts without a `'%'` are printed as they
are. -/
theorem escape_exact (s : Text) : PrintsAsIs s ↔ '%' ∉ s := by
  constructor
  · rintro ⟨f, hf, hout⟩
    obtain ⟨ss, hss⟩ : ∃ ss, Parses (escape s) ss := by
      by_contra hn
      rw [new_rejected (mt accepted_iff.mp hn)] at hf
      cases hf
    obtain ⟨hnew, hformat⟩ :=
      format_new (fun _ _ => ['!']) (Logger.new []) 1 markEvent hss
    cases hnew.symm.trans hf
    exact not_mem_of_markedOutput hss (hformat.symm.trans (hout _ _ _ _))
  · intro h
    rw [PrintsAsIs, escape_eq h]
    have hp := parses_literals h
    refine ⟨_, (format_new (fun _ _ => []) (Logger.new []) 1 markEvent hp).1,
      fun strftime logger level event => ?_⟩
    rw [(format_new strftime logger level event hp).2, output_literals]

/-- `"%%"` is not a pattern: the second `'%'` begins an item without a name. -/
theorem escape_throws : ¬ PrintsAsIs ['%'] := by
  rintro ⟨f, hf, -⟩
  have hnew : new (escape ['%']) = .error ['%', '%'] := by decide
  rw [hnew] at hf
  cases hf

/-! ## Dates -/

/-- The output of a segment, with a date in the format that it names. -/
def Segment.dated (strftime : Text → ℕ → Text) (level : ℕ) (event : LogEvent) : Segment → Text
  | .item 'd' fmt =>
    strftime (if fmt.getD [] = [] then defaultDateFormat else fmt.getD []) event.time
  | x => x.output strftime level event

/-- The formatter of the pattern is made, and for every event each date is printed at its place in
the format that it names. -/
def PrintsDates (p : Text) (ss : List Segment) : Prop := ∃ f, new p = .ok f ∧
  ∀ strftime logger level event,
    format strftime f logger level event = ss.flatMap (Segment.dated strftime level event)

/-- Every date is printed in the default format. -/
theorem output_date (strftime : Text → ℕ → Text) (level : ℕ) (event : LogEvent)
    (fmt : Option Text) :
    (Segment.item 'd' fmt).output strftime level event = strftime defaultDateFormat event.time :=
  rfl

theorem dated_of_ne (strftime : Text → ℕ → Text) (level : ℕ) (event : LogEvent) {x : Segment}
    (h : ∀ fmt, x ≠ .item 'd' fmt) :
    x.dated strftime level event = x.output strftime level event := by
  unfold Segment.dated
  split
  · exact absurd rfl (h _)
  · rfl

/-- With a `strftime` that prints nothing in the default format only, no segment prints more than
it should. -/
def defaultEmpty (fmt : Text) (_time : ℕ) : Text := if fmt = defaultDateFormat then [] else ['!']

theorem output_le_dated (level : ℕ) (event : LogEvent) (x : Segment) :
    (x.output defaultEmpty level event).length ≤ (x.dated defaultEmpty level event).length := by
  by_cases h : ∃ fmt, x = .item 'd' fmt
  · obtain ⟨fmt, rfl⟩ := h
    rw [output_date, defaultEmpty, if_pos rfl]
    exact Nat.zero_le _
  · rw [dated_of_ne _ _ _ fun fmt hx => h ⟨fmt, hx⟩]

/-- Where no part is longer and the wholes are equally long, the parts are. -/
theorem length_eq_of_flatMap {α β : Type} {f g : α → List β} (hle : ∀ x, (f x).length ≤ (g x).length)
    {l : List α} (h : (l.flatMap f).length = (l.flatMap g).length) :
    ∀ x ∈ l, (f x).length = (g x).length := by
  have hsum (l : List α) : (l.flatMap f).length ≤ (l.flatMap g).length := by
    induction l with
    | nil => exact le_rfl
    | cons a l ih =>
      simp only [List.flatMap_cons, List.length_append]
      exact Nat.add_le_add (hle a) ih
  induction l with
  | nil => exact fun x hx => absurd hx List.not_mem_nil
  | cons a l ih =>
    simp only [List.flatMap_cons, List.length_append] at h
    have ha := hle a
    have hl := hsum l
    intro x hx
    rcases List.mem_cons.mp hx with rfl | hx
    · omega
    · exact ih (by omega) x hx

/-- **Dates are printed in the formats that they name** exactly if none names another format than
the default one. -/
theorem dates_exact {p : Text} {ss : List Segment} (h : Parses p ss) :
    PrintsDates p ss ↔ DefaultDates ss := by
  constructor
  · rintro ⟨f, hf, hout⟩ fmt hmem hne
    obtain ⟨hnew, hformat⟩ := format_new defaultEmpty (Logger.new []) 1 markEvent h
    cases hnew.symm.trans hf
    have heq := congrArg List.length (hformat.symm.trans (hout _ _ _ _))
    have hlen := length_eq_of_flatMap (output_le_dated 1 markEvent) heq _ hmem
    rw [output_date, defaultEmpty, if_pos rfl] at hlen
    by_contra hd
    simp [Segment.dated, hne, defaultEmpty, hd] at hlen
  · intro hd
    refine ⟨_, (format_new defaultEmpty (Logger.new []) 1 markEvent h).1,
      fun strftime logger level event => ?_⟩
    rw [(format_new strftime logger level event h).2, output]
    refine List.flatMap_congr fun x hx => ?_
    by_cases hdate : ∃ fmt, x = .item 'd' fmt
    · obtain ⟨fmt, rfl⟩ := hdate
      rw [output_date, Segment.dated]
      cases fmt with
      | none => rfl
      | some fmt =>
        by_cases hne : fmt = []
        · simp [hne]
        · obtain rfl := hd fmt hx hne
          exact congrArg (strftime · event.time) (by simp)
    · rw [dated_of_ne _ _ _ fun fmt hx => hdate ⟨fmt, hx⟩]

/-- Two dates without a format and one with an empty one. -/
theorem dates_exact_default : PrintsDates ['%', 'd', '{', '}', '%', 'd', ' ', '%', 'd']
    [.item 'd' (some []), .item 'd' none, .literal ' ', .item 'd' none] := by
  have h : Parses ['%', 'd', '{', '}', '%', 'd', ' ', '%', 'd']
      [.item 'd' (some []), .item 'd' none, .literal ' ', .item 'd' none] :=
    @Parses.braced _ [] _ _ (by decide) (by decide) (.bare (by decide) (by simp [EndsName])
      (.literal (by decide) (.bare (by decide) (by simp [EndsName]) .nil)))
  refine (dates_exact h).mpr fun fmt hmem hne => ?_
  simp [hne] at hmem

/-- The format of the file appender in the test configuration begins with `"%d{%Y-%m-%d}"`. -/
theorem date_in_default :
    Parses ['%', 'd', '{', '%', 'Y', '-', '%', 'm', '-', '%', 'd', '}']
      [.item 'd' (some ['%', 'Y', '-', '%', 'm', '-', '%', 'd'])] ∧
    ¬ PrintsDates ['%', 'd', '{', '%', 'Y', '-', '%', 'm', '-', '%', 'd', '}']
      [.item 'd' (some ['%', 'Y', '-', '%', 'm', '-', '%', 'd'])] := by
  have h : Parses ['%', 'd', '{', '%', 'Y', '-', '%', 'm', '-', '%', 'd', '}']
      [.item 'd' (some ['%', 'Y', '-', '%', 'm', '-', '%', 'd'])] :=
    @Parses.braced _ ['%', 'Y', '-', '%', 'm', '-', '%', 'd'] _ _ (by decide) (by decide) .nil
  refine ⟨h, fun ⟨f, hf, hout⟩ => ?_⟩
  obtain ⟨hnew, hformat⟩ := format_new (fun fmt _ => fmt) (Logger.new []) 1 markEvent h
  cases hnew.symm.trans hf
  have heq := hformat.symm.trans (hout _ _ _ _)
  revert heq
  decide

end LogFormatter

end Ddg
