import Mathlib.Data.List.Basic

/-!
# The pattern parser

`LogFormatter::initPattern` of `ddg/log.cc`. A text is the list of its characters. The parser first
cuts the pattern into triples `(str, fmt, type)`, in two nested loops over indices, and then makes
one format item of each triple.

* `itemLoop`: the inner loop, which reads the name and the format of one item.
* `patternLoop`: the outer loop.
* `makeItems`: the items of the triples, from the table `formatItems`.
* `initPattern`: what it returns or throws, and the vector of items afterwards.
-/

namespace Ddg

/-- A `std::string`. -/
abbrev Text := List Char

/-- `s.substr(pos, len)`. -/
def substr (s : Text) (pos len : ℕ) : Text := (s.drop pos).take len

/-- The subclasses of `LogFormatter::FormatItem`. -/
inductive FormatItem
  | string (string : Text)
  | message
  | level
  | elapse
  | name
  | threadId
  | newLine
  | dateTime (format : Text)
  | filename
  | line
  | tab
  | fiberId
  deriving DecidableEq

/-- `DateTimeFormatItem(format)`. -/
def FormatItem.newDateTime (format : Text) : FormatItem :=
  .dateTime (if format = [] then "%Y-%m-%d %H:%M:%S".toList else format)

/-- `s_format_items`. No factory looks at its argument `fmt`: `make_shared<C>()` takes the
defaults. -/
def formatItems : List (Text × (Text → FormatItem)) :=
  [("m".toList, fun _ => .message), ("p".toList, fun _ => .level), ("r".toList, fun _ => .elapse),
    ("c".toList, fun _ => .name), ("t".toList, fun _ => .threadId), ("n".toList, fun _ => .newLine),
    ("d".toList, fun _ => .newDateTime "%Y-%m-%d %H:%M:%S".toList),
    ("f".toList, fun _ => .filename), ("l".toList, fun _ => .line), ("T".toList, fun _ => .tab),
    ("F".toList, fun _ => .fiberId), ("N".toList, fun _ => .threadId)]

namespace LogFormatter

/-! ## The inner loop -/

/-- The locals of the inner loop. -/
structure ItemScan where
  n : ℕ
  str : Text := []
  fmt : Text := []
  fmtStatus : Bool := false
  fmtBegin : ℕ := 0

/-- `while (n < pattern.size())`, for the item that begins at `i`; `rest` is the pattern from `n`
on. -/
def itemLoop (pattern : Text) (i : ℕ) : Text → ItemScan → ItemScan
  | [], x => x
  | c :: rest, x =>
    if !x.fmtStatus && !c.isAlpha && c != '{' && c != '}' then
      { x with str := substr pattern (i + 1) (x.n - i - 1) }
    else if !x.fmtStatus && c == '{' then
      itemLoop pattern i rest
        { x with str := substr pattern (i + 1) (x.n - i - 1), fmtStatus := true, fmtBegin := x.n,
                 n := x.n + 1 }
    else if x.fmtStatus && c == '}' then
      { x with fmt := substr pattern (x.fmtBegin + 1) (x.n - x.fmtBegin - 1), fmtStatus := false,
               n := x.n + 1 }
    else if x.n + 1 = pattern.length ∧ x.str = [] then
      itemLoop pattern i rest { x with n := x.n + 1, str := pattern.drop (i + 1) }
    else itemLoop pattern i rest { x with n := x.n + 1 }

/-- The inner loop, from its initialisation on. -/
def scanItem (pattern : Text) (i : ℕ) : ItemScan :=
  itemLoop pattern i (pattern.drop (i + 1)) { n := i + 1 }

/-! ## The outer loop -/

/-- The locals of the outer loop. -/
structure PatternScan where
  vec : List (Text × Text × ℕ) := []
  nstr : Text := []
  error : Bool := false

/-- `nstr` goes to `vec`, if there is any. -/
def PatternScan.flush (x : PatternScan) : PatternScan :=
  if x.nstr = [] then x else { x with vec := x.vec ++ [(x.nstr, [], 0)], nstr := [] }

/-- One turn of the outer loop at `i`: the locals, and the `i` of the next turn. -/
def patternTurn (pattern : Text) (i : ℕ) (c : Char) (x : PatternScan) : PatternScan × ℕ :=
  if c ≠ '%' then ({ x with nstr := x.nstr ++ [c] }, i + 1)
  else if pattern[i + 1]? = some '%' then ({ x with nstr := x.nstr ++ ['%'] }, i + 1)
  else
    let y := scanItem pattern i
    if !y.fmtStatus then
      let x := x.flush
      ({ x with vec := x.vec ++ [(y.str, y.fmt, 1)] }, y.n)
    else
      ({ x with error := true, vec := x.vec ++ [("<<pattern_error>>".toList, y.fmt, 0)] }, i + 1)

/-- The outer loop, with at most `fuel` turns. -/
def patternLoop (pattern : Text) : ℕ → ℕ → PatternScan → PatternScan
  | 0, _, x => x
  | fuel + 1, i, x =>
    match pattern[i]? with
    | none => x
    | some c =>
      let r := patternTurn pattern i c x
      patternLoop pattern fuel r.2 r.1

/-- The triples and the error flag. Each turn increases `i`, so `pattern.size()` turns are enough
(`patternLoop_fuel`). -/
def parse (pattern : Text) : PatternScan := (patternLoop pattern pattern.length 0 {}).flush

/-! ## The items -/

/-- `vec` to `items`; the flag is `error`. -/
def makeItems : List (Text × Text × ℕ) → List FormatItem → Bool → List FormatItem × Bool
  | [], items, error => (items, error)
  | (str, fmt, type) :: vec, items, error =>
    if type = 0 then makeItems vec (items ++ [.string str]) error
    else
      match formatItems.lookup str with
      | none =>
        makeItems vec (items ++ [.string ("<<error_format %".toList ++ str ++ ">>".toList)]) true
      | some make => makeItems vec (items ++ [make fmt]) error

/-- `LogFormatter::initPattern`: its result (`error`: it throws `std::invalid_argument` of that
text), and `items` afterwards. -/
def initPattern (pattern : Text) (items : List FormatItem) :
    Except Text Bool × List FormatItem :=
  let x := parse pattern
  let r := makeItems x.vec items x.error
  (if r.2 then .error pattern else .ok !r.2, r.1)

/-- `LogFormatter::checkValid`. -/
def checkValid (pattern : Text) : Except Text Bool := (initPattern pattern []).1

end LogFormatter

/-- A `LogFormatter`. -/
structure LogFormatter where
  pattern : Text
  items : List FormatItem
  error : Bool
  deriving DecidableEq

namespace LogFormatter

/-- The constructor, which lets the exception of `initPattern` through. -/
def new (pattern : Text) : Except Text LogFormatter :=
  match initPattern pattern [] with
  | (.error e, _) => .error e
  | (.ok valid, items) => .ok ⟨pattern, items, !valid⟩

/-- The patterns that `checkValid` and the constructor do not throw on. -/
def Accepted (pattern : Text) : Prop := checkValid pattern = .ok true

instance (pattern : Text) : Decidable (Accepted pattern) :=
  inferInstanceAs (Decidable (checkValid pattern = .ok true))

/-- `initPattern` throws or returns `true`, never `false`. -/
theorem checkValid_cases (pattern : Text) :
    Accepted pattern ∨ checkValid pattern = .error pattern := by
  unfold Accepted checkValid initPattern
  simp only
  split
  · exact .inr rfl
  · rename_i h
    refine .inl ?_
    simpa using h

theorem new_accepted {pattern : Text} (h : Accepted pattern) :
    new pattern = .ok ⟨pattern, (initPattern pattern []).2, false⟩ := by
  unfold Accepted checkValid at h
  unfold new
  rcases hi : initPattern pattern [] with ⟨r, items⟩
  rw [hi] at h
  obtain rfl : r = .ok true := h
  rfl

theorem new_rejected {pattern : Text} (h : ¬ Accepted pattern) : new pattern = .error pattern := by
  have he := (checkValid_cases pattern).resolve_left h
  unfold checkValid at he
  unfold new
  rcases hi : initPattern pattern [] with ⟨r, items⟩
  rw [hi] at he
  obtain rfl : r = .error pattern := he
  rfl

end LogFormatter

end Ddg
