import DdgServer.Config.Var
import Mathlib.Data.BitVec

/-!
# Backtraces

`BackTrace` and `BacktraceToString` of `ddg/utils.cc`, which the assertions of `ddg/macro.h` call.
`::backtrace` and `backtrace_symbols` are those of the C library; what they find is in `Frames`. An
`int` is a `BitVec 32`, a `size_t` a `BitVec 64`.

* `backTrace`: the vector is sized by `nptrs - skip + 1` in `size_t`; the loop runs over
  `indices skip nptrs`; the symbols are those of all `size` entries of the array.
* `fill_indices`: the loop invariant. `backTrace_eq`: one entry more than there are frames to show.
* `backTrace_right`: no call is right in every respect, and in which ones it is for which `skip` and
  `nptrs`.
-/

namespace Ddg.BackTrace

/-- What the C library finds: the array after `::backtrace`, with what `malloc` left behind the
frames; the number of frames; the text of an address; and whether `backtrace_symbols` gets its
memory. -/
structure Frames (α : Type) where
  array : ℕ → α
  nptrs : BitVec 32
  symbol : α → Text
  memory : Bool := true

variable {α : Type}

/-- `backtrace_symbols(array, size)`; `none`: it returned a null pointer. -/
def Frames.symbols (f : Frames α) (size : BitVec 32) : Option (List Text) :=
  if f.memory then some ((List.range size.toNat).map fun i => f.symbol (f.array i)) else none

/-- The first `n` entries, filled up with empty texts. -/
def resized (bt : List Text) (n : ℕ) : List Text :=
  bt.take n ++ List.replicate (n - bt.length) []

/-- `bt.resize(n)`, for a vector whose `max_size()` is `maxSize`. -/
def resize (maxSize : ℕ) (bt : List Text) (n : BitVec 64) : CallResult (List Text) :=
  if maxSize < n.toNat then .thrown bt else .done (resized bt n.toNat)

theorem toNat_succ {j n : BitVec 64} (h : j < n) : (j + 1).toNat = j.toNat + 1 := by
  have hlt : j.toNat < n.toNat := h
  have hn := n.isLt
  rw [BitVec.toNat_add, show BitVec.toNat (1 : BitVec 64) = 1 from rfl]
  omega

/-- The values of `j` in `for (size_t j = skip; j < nptrs; j++)`, from `j` on. -/
def indices (j nptrs : BitVec 64) : List (BitVec 64) :=
  if j < nptrs then j :: indices (j + 1) nptrs else []
termination_by nptrs.toNat - j.toNat
decreasing_by
  rename_i h
  have hlt : j.toNat < nptrs.toNat := h
  rw [toNat_succ h]
  omega

/-- The loop. A null pointer, or an index outside the symbols or the vector, is undefined. -/
def fill (strings : Option (List Text)) (skip : BitVec 64) (bt : List Text) :
    List (BitVec 64) → CallResult (List Text)
  | [] => .done bt
  | j :: js =>
    match strings.bind fun l => l[j.toNat]? with
    | some s =>
      if (j - skip).toNat < bt.length then fill strings skip (bt.set (j - skip).toNat s) js
      else .crashed
    | none => .crashed

/-- The size that `BackTrace` computes. -/
def newSize (nptrs skip : BitVec 32) : BitVec 64 := nptrs.signExtend 64 - skip.signExtend 64 + 1

/-- `BackTrace`. A `system_error` for null symbols is made and dropped. -/
def backTrace (f : Frames α) (maxSize : ℕ) (bt : List Text) (size skip : BitVec 32) :
    CallResult (List Text) :=
  (resize maxSize bt (newSize f.nptrs skip)).bind fun bt =>
    fill (f.symbols size) (skip.signExtend 64) bt
      (indices (skip.signExtend 64) (f.nptrs.signExtend 64))

/-- What `BacktraceToString` writes into its stream. -/
def lines (pre : Text) (bt : List Text) : Text := bt.flatMap fun s => pre ++ s ++ ['\n']

/-- `BacktraceToString`. -/
def backtraceToString (f : Frames α) (maxSize : ℕ) (size skip : BitVec 32) (pre : Text) :
    CallResult Text :=
  (backTrace f maxSize [] size skip).map (lines pre)

/-- A call with a `size` and a `skip` that are not negative. `::backtrace` delivers at most `size`
frames. -/
structure Call (α : Type) extends Frames α where
  size : BitVec 32
  skip : BitVec 32
  size_nonneg : 0 ≤ size.toInt
  skip_nonneg : 0 ≤ skip.toInt
  nptrs_nonneg : 0 ≤ nptrs.toInt
  nptrs_le : nptrs.toInt ≤ size.toInt

/-! ## What a call is to do -/

namespace Call

variable (c : Call α)

/-- The frames `skip .. nptrs - 1`. -/
def wanted : List Text :=
  ((List.range c.nptrs.toNat).map fun i => c.symbol (c.array i)).drop c.skip.toNat

/-- `bt` ends up with these frames and nothing else. -/
def Filled (maxSize : ℕ) (bt : List Text) : Prop :=
  backTrace c.toFrames maxSize bt c.size c.skip = .done c.wanted

/-- The size is the number that the expression denotes over the integers. -/
def Sized : Prop := ((newSize c.nptrs c.skip).toNat : ℤ) = c.nptrs.toInt - c.skip.toInt + 1

/-- Neither operation of the expression wraps around. -/
def Unwrapped : Prop :=
  ((c.nptrs.signExtend 64 - c.skip.signExtend 64).toNat : ℤ) = c.nptrs.toInt - c.skip.toInt ∧
    c.Sized

/-- The loop reads the symbols of delivered frames only. -/
def Reads : Prop :=
  ∀ j ∈ indices (c.skip.signExtend 64) (c.nptrs.signExtend 64), (j.toNat : ℤ) < c.nptrs.toInt

/-- `backtrace_symbols` looks up the addresses of delivered frames only. -/
def LooksUp : Prop := ∀ i ∈ List.range c.size.toNat, (i : ℤ) < c.nptrs.toInt

/-- The text has as many lines as there are frames to show. -/
def Lines (maxSize : ℕ) (pre : Text) : Prop :=
  ∃ text, backtraceToString c.toFrames maxSize c.size c.skip pre = .done text ∧
    (text.count '\n' : ℤ) = max (c.nptrs.toInt - c.skip.toInt) 0

/-- The call does what it is to do: the frames and the lines are right, the computation of the size
does not wrap around, and the loop stays among the delivered frames. -/
structure Right (maxSize : ℕ) (bt : List Text) (pre : Text) : Prop where
  filled : c.Filled maxSize bt
  unwrapped : c.Unwrapped
  reads : c.Reads
  lines : c.Lines maxSize pre

end Call

/-! ## The loop -/

theorem indices_lt (j nptrs : BitVec 64) : ∀ k ∈ indices j nptrs, k < nptrs := by
  fun_induction indices j nptrs with
  | case1 j h ih =>
    intro k hk
    rcases List.mem_cons.mp hk with rfl | hk
    · exact h
    · exact ih k hk
  | case2 j h =>
    intro k hk
    cases hk

theorem indices_of_le {j nptrs : BitVec 64} (h : nptrs.toNat ≤ j.toNat) : indices j nptrs = [] := by
  rw [indices, if_neg]
  exact fun hlt => absurd h (Nat.not_le.mpr hlt)

theorem length_resized (bt : List Text) (n : ℕ) : (resized bt n).length = n := by
  rw [resized, List.length_append, List.length_take, List.length_replicate]
  omega

/-- The last entry is what was there before, or empty. -/
theorem drop_resized (bt : List Text) (k : ℕ) : (resized bt (k + 1)).drop k = [bt.getD k []] := by
  have hlen := length_resized bt (k + 1)
  rw [List.drop_eq_getElem_cons (by omega), List.drop_eq_nil_of_le (by omega)]
  simp only [resized]
  by_cases hbt : k < bt.length
  · rw [List.getElem_append_left (by rw [List.length_take]; omega), List.getElem_take]
    simp [hbt]
  · rw [List.getElem_append_right (by rw [List.length_take]; omega), List.getElem_replicate]
    simp [hbt]

theorem length_resize {maxSize : ℕ} {bt bt' : List Text} {n : BitVec 64}
    (h : resize maxSize bt n = .done bt') : bt'.length = n.toNat := by
  unfold resize at h
  split at h
  · cases h
  · cases h
    exact length_resized bt n.toNat

/-- The loop writes into the vector and never changes its size. -/
theorem length_fill {strings : Option (List Text)} {skip : BitVec 64} {js : List (BitVec 64)} :
    ∀ {bt bt' : List Text}, fill strings skip bt js = .done bt' → bt'.length = bt.length := by
  induction js with
  | nil =>
    intro bt bt' h
    cases h
    rfl
  | cons j js ih =>
    intro bt bt' h
    rw [fill] at h
    split at h
    · split at h
      · exact (ih h).trans List.length_set
      · cases h
    · cases h

/-- The first entry behind those that are written. -/
theorem set_behind (front bt : List Text) (s : Text) (h : front.length < bt.length) :
    (front ++ bt.drop front.length).set front.length s =
      (front ++ [s]) ++ bt.drop (front.length + 1) := by
  rw [List.set_append_right _ _ le_rfl, Nat.sub_self, List.drop_eq_getElem_cons h,
    List.set_cons_zero, List.append_assoc, List.singleton_append]

/-- Before the index `j` the loop has written the symbols `skip .. j - 1` over the front of the
vector; the rest is as it was. -/
theorem fill_indices (strings bt : List Text) (skip j nptrs : BitVec 64)
    (hskip : skip.toNat ≤ j.toNat) (hj : j.toNat ≤ nptrs.toNat)
    (hn : nptrs.toNat ≤ strings.length) (hbt : nptrs.toNat - skip.toNat ≤ bt.length) :
    fill (some strings) skip
        ((strings.take j.toNat).drop skip.toNat ++ bt.drop (j.toNat - skip.toNat))
        (indices j nptrs) =
      .done ((strings.take nptrs.toNat).drop skip.toNat ++ bt.drop (nptrs.toNat - skip.toNat)) := by
  fun_induction indices j nptrs with
  | case1 j h ih =>
    have hlt : j.toNat < nptrs.toNat := h
    have hget : strings[j.toNat]? = some strings[j.toNat] := List.getElem?_eq_getElem (by omega)
    have hfront : ((strings.take j.toNat).drop skip.toNat).length = j.toNat - skip.toNat := by
      rw [List.length_drop, List.length_take]
      omega
    have hsub : (j - skip).toNat = j.toNat - skip.toNat := BitVec.toNat_sub_of_le hskip
    have hset := set_behind ((strings.take j.toNat).drop skip.toNat) bt strings[j.toNat]
      (by omega)
    have hnext : (strings.take j.toNat).drop skip.toNat ++ [strings[j.toNat]] =
        (strings.take (j + 1).toNat).drop skip.toNat := by
      rw [toNat_succ h, ← List.take_append_getElem (by omega : j.toNat < strings.length),
        List.drop_append_of_le_length (by rw [List.length_take]; omega)]
    rw [hfront, hnext] at hset
    have hrest : j.toNat - skip.toNat + 1 = (j + 1).toNat - skip.toNat := by
      rw [toNat_succ h]
      omega
    rw [fill, Option.bind_some, hget]
    simp only
    rw [if_pos (by rw [hsub, List.length_append, hfront, List.length_drop]; omega), hsub, hset,
      hrest]
    exact ih (by rw [toNat_succ h]; omega) (by rw [toNat_succ h]; omega)
  | case2 j h =>
    have hle : nptrs.toNat ≤ j.toNat := Nat.not_lt.mp h
    rw [fill, show j.toNat = nptrs.toNat by omega]

/-- Each entry makes at least one line. -/
theorem length_le_count (pre : Text) (bt : List Text) : bt.length ≤ (lines pre bt).count '\n' := by
  induction bt with
  | nil => exact Nat.zero_le _
  | cons s bt ih =>
    have hone : 1 ≤ (pre ++ s ++ ['\n']).count '\n' := by
      rw [List.count_append]
      exact Nat.le_add_left 1 _
    have hcons : lines pre (s :: bt) = pre ++ s ++ ['\n'] ++ lines pre bt := rfl
    rw [hcons, List.count_append, List.length_cons]
    omega

/-! ## One call -/

theorem toInt_eq_toNat {x : BitVec 32} (h : 0 ≤ x.toInt) : x.toInt = x.toNat := by
  rw [BitVec.toInt_eq_toNat_cond] at h ⊢
  split at h
  · rename_i hlt
    rw [if_pos hlt]
  · have := x.isLt
    omega

theorem signExtend_toNat {x : BitVec 32} (h : 0 ≤ x.toInt) : (x.signExtend 64).toNat = x.toNat := by
  have hmsb : x.msb = false := by
    rw [BitVec.msb_eq_toInt, decide_eq_false_iff_not]
    omega
  have := x.isLt
  rw [BitVec.signExtend_eq_setWidth_of_msb_false hmsb, BitVec.toNat_setWidth]
  omega

namespace Call

variable {c : Call α}

theorem newSize_toNat (c : Call α) : (newSize c.nptrs c.skip).toNat =
    if c.skip.toNat ≤ c.nptrs.toNat + 1 then c.nptrs.toNat + 1 - c.skip.toNat
    else 2 ^ 64 + c.nptrs.toNat + 1 - c.skip.toNat := by
  have hn := c.nptrs.isLt
  have hs := c.skip.isLt
  rw [newSize, BitVec.toNat_add, BitVec.toNat_sub, signExtend_toNat c.nptrs_nonneg,
    signExtend_toNat c.skip_nonneg, show BitVec.toNat (1 : BitVec 64) = 1 from rfl]
  split <;> omega

theorem sized_iff : c.Sized ↔ c.skip.toInt ≤ c.nptrs.toInt + 1 := by
  have hn := c.nptrs.isLt
  have hs := c.skip.isLt
  rw [Sized, newSize_toNat, toInt_eq_toNat c.nptrs_nonneg, toInt_eq_toNat c.skip_nonneg]
  split <;> omega

theorem unwrapped_iff : c.Unwrapped ↔ c.skip.toInt ≤ c.nptrs.toInt := by
  have hn := c.nptrs.isLt
  have hs := c.skip.isLt
  rw [Unwrapped, sized_iff, BitVec.toNat_sub, signExtend_toNat c.nptrs_nonneg,
    signExtend_toNat c.skip_nonneg, toInt_eq_toNat c.nptrs_nonneg, toInt_eq_toNat c.skip_nonneg]
  omega

theorem reads (c : Call α) : c.Reads := by
  intro j hj
  have hlt : j.toNat < (c.nptrs.signExtend 64).toNat := indices_lt _ _ j hj
  rw [signExtend_toNat c.nptrs_nonneg] at hlt
  rw [toInt_eq_toNat c.nptrs_nonneg]
  omega

theorem looksUp_iff : c.LooksUp ↔ c.nptrs = c.size := by
  have hle := c.nptrs_le
  have hsize := toInt_eq_toNat c.size_nonneg
  have hn := toInt_eq_toNat c.nptrs_nonneg
  constructor
  · intro h
    by_contra hne
    have hlt : c.nptrs.toNat < c.size.toNat := by
      have : c.nptrs.toNat ≠ c.size.toNat := fun heq => hne (BitVec.eq_of_toNat_eq heq)
      omega
    have := h c.nptrs.toNat (List.mem_range.mpr hlt)
    omega
  · intro h i hi
    have := List.mem_range.mp hi
    rw [h]
    omega

theorem length_wanted (c : Call α) : c.wanted.length = c.nptrs.toNat - c.skip.toNat := by
  rw [wanted, List.length_drop, List.length_map, List.length_range]

/-- The vector of a call that returns has the size that was computed. -/
theorem length_backTrace {maxSize : ℕ} {bt bt' : List Text}
    (h : backTrace c.toFrames maxSize bt c.size c.skip = .done bt') :
    bt'.length = (newSize c.nptrs c.skip).toNat := by
  unfold backTrace at h
  cases hr : resize maxSize bt (newSize c.nptrs c.skip) with
  | done bt₁ =>
    rw [hr, CallResult.bind_done] at h
    exact (length_fill h).trans (length_resize hr)
  | thrown bt₁ =>
    rw [hr] at h
    cases h
  | crashed =>
    rw [hr] at h
    cases h

/-- One frame more is skipped than there are: the size is `0`, and the loop does nothing. -/
theorem backTrace_of_eq (h : c.skip.toInt = c.nptrs.toInt + 1) (maxSize : ℕ) (bt : List Text) :
    backTrace c.toFrames maxSize bt c.size c.skip = .done [] := by
  rw [toInt_eq_toNat c.nptrs_nonneg, toInt_eq_toNat c.skip_nonneg] at h
  have hsize : (newSize c.nptrs c.skip).toNat = 0 := by
    rw [newSize_toNat]
    split <;> omega
  have hle : (c.nptrs.signExtend 64).toNat ≤ (c.skip.signExtend 64).toNat := by
    rw [signExtend_toNat c.nptrs_nonneg, signExtend_toNat c.skip_nonneg]
    omega
  rw [backTrace, resize, hsize, if_neg (Nat.not_lt_zero maxSize), indices_of_le hle]
  simp [resized, fill]

theorem filled_iff (maxSize : ℕ) (bt : List Text) :
    c.Filled maxSize bt ↔ c.skip.toInt = c.nptrs.toInt + 1 := by
  constructor
  · intro h
    have hlen := length_backTrace h
    have hn := c.nptrs.isLt
    have hs := c.skip.isLt
    rw [length_wanted, newSize_toNat] at hlen
    rw [toInt_eq_toNat c.nptrs_nonneg, toInt_eq_toNat c.skip_nonneg]
    split at hlen <;> omega
  · intro h
    rw [Filled, backTrace_of_eq h, List.eq_nil_of_length_eq_zero (l := c.wanted)]
    rw [length_wanted]
    rw [toInt_eq_toNat c.nptrs_nonneg, toInt_eq_toNat c.skip_nonneg] at h
    omega

theorem lines_iff (maxSize : ℕ) (pre : Text) :
    c.Lines maxSize pre ↔ c.skip.toInt = c.nptrs.toInt + 1 := by
  constructor
  · rintro ⟨text, htext, hcount⟩
    unfold backtraceToString at htext
    cases hbt : backTrace c.toFrames maxSize [] c.size c.skip with
    | done bt =>
      rw [hbt, CallResult.map_done] at htext
      cases htext
      have hlen := length_backTrace hbt
      have hle := length_le_count pre bt
      have hn := c.nptrs.isLt
      have hs := c.skip.isLt
      rw [newSize_toNat] at hlen
      rw [toInt_eq_toNat c.nptrs_nonneg, toInt_eq_toNat c.skip_nonneg] at hcount ⊢
      split at hlen <;> omega
    | thrown bt =>
      rw [hbt] at htext
      cases htext
    | crashed =>
      rw [hbt] at htext
      cases htext
  · intro h
    refine ⟨[], by rw [backtraceToString, backTrace_of_eq h]; rfl, ?_⟩
    rw [List.count_nil]
    omega

/-- As long as frames are left after the skip, or none, the vector gets one entry too many: an empty
text, or what the vector had there before. -/
theorem backTrace_eq (hmem : c.memory = true) (hle : c.skip.toInt ≤ c.nptrs.toInt) {maxSize : ℕ}
    (hmax : c.nptrs.toNat + 1 - c.skip.toNat ≤ maxSize) (bt : List Text) :
    backTrace c.toFrames maxSize bt c.size c.skip =
      .done (c.wanted ++ [bt.getD (c.nptrs.toNat - c.skip.toNat) []]) := by
  have hskip := signExtend_toNat c.skip_nonneg
  have hnptrs := signExtend_toNat c.nptrs_nonneg
  have hbound := c.nptrs_le
  rw [toInt_eq_toNat c.nptrs_nonneg, toInt_eq_toNat c.size_nonneg] at hbound
  rw [toInt_eq_toNat c.nptrs_nonneg, toInt_eq_toNat c.skip_nonneg] at hle
  have hsize : (newSize c.nptrs c.skip).toNat = c.nptrs.toNat - c.skip.toNat + 1 := by
    rw [newSize_toNat, if_pos (by omega)]
    omega
  let strings := (List.range c.size.toNat).map fun i => c.symbol (c.array i)
  have hlen : strings.length = c.size.toNat := by rw [List.length_map, List.length_range]
  have hstrings : (strings.take c.nptrs.toNat).drop c.skip.toNat = c.wanted := by
    rw [wanted, ← List.map_take, List.take_range, Nat.min_eq_left (by omega)]
  have hsized := length_resized bt (c.nptrs.toNat - c.skip.toNat + 1)
  have hloop := fill_indices strings (resized bt (c.nptrs.toNat - c.skip.toNat + 1))
    (c.skip.signExtend 64) (c.skip.signExtend 64) (c.nptrs.signExtend 64) le_rfl (by omega)
    (by omega) (by omega)
  rw [hskip, hnptrs, hstrings, drop_resized, Nat.sub_self, List.drop_zero, List.drop_take_self,
    List.nil_append] at hloop
  rw [backTrace, resize, hsize, if_neg (by omega), CallResult.bind_done, Frames.symbols,
    if_pos hmem]
  exact hloop

/-- Where more frames are skipped than that, the size wraps around and no vector is that long. -/
theorem backTrace_throws (h : c.nptrs.toInt + 1 < c.skip.toInt) {maxSize : ℕ}
    (hmax : maxSize < 2 ^ 63) (bt : List Text) :
    backTrace c.toFrames maxSize bt c.size c.skip = .thrown bt := by
  rw [toInt_eq_toNat c.nptrs_nonneg, toInt_eq_toNat c.skip_nonneg] at h
  have hs := c.skip.isLt
  have hsize : maxSize < (newSize c.nptrs c.skip).toNat := by
    rw [newSize_toNat, if_neg (by omega)]
    omega
  rw [backTrace, resize, if_pos hsize, CallResult.bind_thrown]

/-- No call is right. The frames and the lines are right only where one frame more is skipped than
there are; there `nptrs - skip` wraps around and the `+ 1` makes up for it. The loop always stays
among the delivered frames, the look-up does so only when the array is full. -/
theorem backTrace_right (c : Call α) (maxSize : ℕ) (bt : List Text) (pre : Text) :
    ¬ c.Right maxSize bt pre ∧
      (c.Filled maxSize bt ↔ c.skip.toInt = c.nptrs.toInt + 1) ∧
      (c.Lines maxSize pre ↔ c.skip.toInt = c.nptrs.toInt + 1) ∧
      (c.Sized ↔ c.skip.toInt ≤ c.nptrs.toInt + 1) ∧
      (c.Unwrapped ↔ c.skip.toInt ≤ c.nptrs.toInt) ∧
      c.Reads ∧ (c.LooksUp ↔ c.nptrs = c.size) := by
  refine ⟨fun h => ?_, filled_iff maxSize bt, lines_iff maxSize pre, sized_iff, unwrapped_iff,
    c.reads, looksUp_iff⟩
  have heq := (filled_iff maxSize bt).mp h.filled
  have hle := unwrapped_iff.mp h.unwrapped
  omega

end Call

/-- `max_size()` of a vector of strings: `PTRDIFF_MAX / 32`. -/
def vectorMaxSize : ℕ := (2 ^ 63 - 1) / 32

/-- `BacktraceToString()` with three frames. -/
def threeFrames : Call ℕ where
  array := id
  nptrs := 3
  symbol i := [Char.ofNat (97 + i)]
  size := 64
  skip := 1
  size_nonneg := by decide
  skip_nonneg := by decide
  nptrs_nonneg := by decide
  nptrs_le := by decide

/-- Two frames are to be shown, and there are three lines. -/
theorem threeFrames_extra :
    threeFrames.wanted = [['b'], ['c']] ∧
      backTrace threeFrames.toFrames vectorMaxSize [] 64 1 = .done [['b'], ['c'], []] ∧
      backtraceToString threeFrames.toFrames vectorMaxSize 64 1 [] =
        .done ['b', '\n', 'c', '\n', '\n'] ∧
      ¬ threeFrames.Right vectorMaxSize [] [] := by
  have hwanted : threeFrames.wanted = [['b'], ['c']] := by decide
  have hbt : backTrace threeFrames.toFrames vectorMaxSize [] 64 1 = .done [['b'], ['c'], []] := by
    have heq := @Call.backTrace_eq _ threeFrames rfl (by decide) vectorMaxSize (by decide) []
    rw [hwanted] at heq
    exact heq
  refine ⟨hwanted, hbt, ?_, fun h => ?_⟩
  · rw [backtraceToString, hbt]
    rfl
  · have hfilled : backTrace threeFrames.toFrames vectorMaxSize [] 64 1 =
        .done threeFrames.wanted := h.filled
    rw [hbt, hwanted] at hfilled
    cases hfilled

end Ddg.BackTrace
