import Mathlib.Data.BitVec

/-!
# The timeout of `epoll_wait`

`IOManager::idle` of `ddg/iomanager.cc` takes the `uint64_t` of `getNextTimer`, bounds it by
`MAX_TIMEOUT` and passes it to `epoll_wait` as an `int`. An interrupted call is made again, with the
bound applied to what the last round left. The comparison and the call both narrow the value to its
low word, read as a signed number; the bound does not.

* `poll`: the arguments of the calls in one round, after the results so far. `idle`: those of all
  rounds.
* `arg_toInt`: what is passed, over the integers. The calls made again pass the same
  (`reassign_idem`).
* `idle_timeouts`: every argument is right exactly if every value is `Safe`.
-/

namespace Ddg.Idle

/-- `~0ull`: there is no timer. -/
def noTimer : BitVec 64 := BitVec.allOnes 64

def MAX_TIMEOUT : BitVec 32 := 3000

def EINTR : BitVec 32 := 4

/-- What an `epoll_wait` returned, and `errno`. -/
structure EpollResult where
  ret : BitVec 32
  errno : BitVec 32 := 0

/-- `ret < 0 && errno == EINTR`. -/
def EpollResult.interrupted (r : EpollResult) : Bool := r.ret.slt 0 && r.errno == EINTR

/-- The assignment to `next_timeout` before the call. -/
def reassign (nextTimeout : BitVec 64) : BitVec 64 :=
  if nextTimeout ≠ noTimer then
    if MAX_TIMEOUT.slt (nextTimeout.setWidth 32) then MAX_TIMEOUT.signExtend 64 else nextTimeout
  else MAX_TIMEOUT.signExtend 64

/-- `static_cast<int>(next_timeout)` after it. -/
def arg (nextTimeout : BitVec 64) : BitVec 32 := (reassign nextTimeout).setWidth 32

/-- The inner loop: the arguments of the calls, the last of which has not returned if all the
results are interruptions. -/
def poll (nextTimeout : BitVec 64) : List EpollResult → List (BitVec 32)
  | [] => [arg nextTimeout]
  | r :: rs => arg nextTimeout :: if r.interrupted then poll (reassign nextTimeout) rs else []

/-- What one round of the outer loop finds: the value of `getNextTimer()`, `m_pendingEventCount`,
`Scheduler::isStoped()`, and the results of the calls. -/
structure Round where
  timer : BitVec 64
  pendingEventCount : ℕ := 0
  stoped : Bool := false
  results : List EpollResult := []

/-- `IOManager::isStoped(timeout)`. -/
def Round.isStoped (r : Round) : Bool :=
  r.timer == noTimer && (r.pendingEventCount == 0 && r.stoped)

/-- The outer loop: each value of `getNextTimer()` with the arguments that came of it. -/
def idle : List Round → List (BitVec 64 × BitVec 32)
  | [] => []
  | r :: rs =>
    if r.isStoped then [] else (poll r.timer r.results).map (fun t => (r.timer, t)) ++ idle rs

/-- The rounds that come to the inner loop. -/
def polled (rounds : List Round) : List Round := rounds.takeWhile fun r => !r.isStoped

/-- The argument is the smaller of the value and `3000`. -/
structure Right (timer : BitVec 64) (timeout : BitVec 32) : Prop where
  eq_min : timeout.toInt = min timer.toNat 3000
  nonneg : 0 ≤ timeout.toInt
  le : timeout.toInt ≤ 3000

/-- The value is at most `3000`, or `~0`, or its low word is as a signed number at least `3000`. -/
def Safe (timer : BitVec 64) : Prop :=
  timer.toNat ≤ 3000 ∨ timer = noTimer ∨
    (3000 ≤ timer.toNat % 2 ^ 32 ∧ timer.toNat % 2 ^ 32 < 2 ^ 31)

instance (timer : BitVec 64) : Decidable (Safe timer) := inferInstanceAs (Decidable (_ ∨ _))

/-! ## One call -/

theorem MAX_TIMEOUT_toInt : MAX_TIMEOUT.toInt = 3000 := by decide

/-- Over the integers the code passes the smaller of the signed low word and `3000`. -/
theorem arg_toInt (t : BitVec 64) :
    (arg t).toInt = if t = noTimer then 3000 else min (t.setWidth 32).toInt 3000 := by
  by_cases ht : t = noTimer
  · simp only [arg, reassign, ht]
    decide
  · rw [if_neg ht, arg, reassign, if_pos ht]
    split
    · rename_i hlt
      rw [BitVec.slt_iff_toInt_lt, MAX_TIMEOUT_toInt] at hlt
      rw [min_eq_right hlt.le]
      decide
    · rename_i hlt
      rw [BitVec.slt_iff_toInt_lt, MAX_TIMEOUT_toInt, not_lt] at hlt
      rw [min_eq_left hlt]

/-- The low word as an `int`. -/
theorem low_toInt (t : BitVec 64) :
    (t.setWidth 32).toInt =
      if t.toNat % 2 ^ 32 < 2 ^ 31 then (t.toNat % 2 ^ 32 : ℤ)
      else (t.toNat % 2 ^ 32 : ℤ) - 2 ^ 32 := by
  rw [BitVec.toInt_eq_toNat_cond, BitVec.toNat_setWidth]
  split <;> split <;> omega

/-- The argument is negative, so that the call blocks without limit, for the values with bit 31 set
other than `~0`. -/
theorem arg_neg_iff (t : BitVec 64) :
    (arg t).toInt < 0 ↔ t ≠ noTimer ∧ 2 ^ 31 ≤ t.toNat % 2 ^ 32 := by
  rw [arg_toInt, low_toInt]
  by_cases ht : t = noTimer
  · simp [ht]
  · rw [if_neg ht]
    split <;> constructor <;> intro h
    · omega
    · omega
    · exact ⟨ht, by omega⟩
    · omega

theorem right_arg_iff (t : BitVec 64) : Right t (arg t) ↔ Safe t := by
  have hlt := t.isLt
  constructor
  · intro h
    have heq := h.eq_min
    rw [arg_toInt, low_toInt] at heq
    by_cases ht : t = noTimer
    · exact .inr (.inl ht)
    · rw [if_neg ht] at heq
      by_cases hle : t.toNat ≤ 3000
      · exact .inl hle
      · refine .inr (.inr ?_)
        split at heq <;> omega
  · intro h
    have heq : (arg t).toInt = min t.toNat 3000 := by
      rw [arg_toInt, low_toInt]
      rcases h with hle | rfl | ⟨hge, hlt'⟩
      · have hne : t ≠ noTimer := by
          rintro rfl
          exact absurd hle (by decide)
        rw [if_neg hne, if_pos (by omega)]
        omega
      · decide
      · have hne : t ≠ noTimer := by
          rintro rfl
          exact absurd hlt' (by decide)
        rw [if_neg hne, if_pos hlt']
        omega
    exact ⟨heq, by omega, by omega⟩

/-! ## The loops -/

/-- A second assignment changes nothing. -/
theorem reassign_idem (t : BitVec 64) : reassign (reassign t) = reassign t := by
  by_cases ht : t = noTimer
  · subst ht
    decide
  · by_cases hlt : MAX_TIMEOUT.slt (t.setWidth 32) = true
    · have h : reassign t = MAX_TIMEOUT.signExtend 64 := by rw [reassign, if_pos ht, if_pos hlt]
      rw [h]
      decide
    · have h : reassign t = t := by rw [reassign, if_pos ht, if_neg hlt]
      rw [h, h]

/-- All calls of a round pass the same argument. -/
theorem mem_poll (t : BitVec 64) (rs : List EpollResult) (a : BitVec 32) :
    a ∈ poll t rs ↔ a = arg t := by
  induction rs generalizing t with
  | nil => exact List.mem_singleton
  | cons r rs ih =>
    rw [poll, List.mem_cons]
    split
    · have harg : arg (reassign t) = arg t := by rw [arg, reassign_idem, arg]
      rw [ih, harg, or_self]
    · simp

theorem mem_idle (rounds : List Round) (c : BitVec 64 × BitVec 32) :
    c ∈ idle rounds ↔ ∃ r ∈ polled rounds, c = (r.timer, arg r.timer) := by
  induction rounds with
  | nil => simp [idle, polled]
  | cons r rs ih =>
    cases hr : r.isStoped with
    | true => simp [idle, polled, hr]
    | false =>
      have hpolled : polled (r :: rs) = r :: polled rs := by simp [polled, hr]
      rw [idle, hr, if_neg Bool.false_ne_true, List.mem_append, ih, hpolled,
        List.exists_mem_cons_iff]
      refine or_congr ?_ Iff.rfl
      rw [List.mem_map]
      constructor
      · rintro ⟨a, ha, rfl⟩
        rw [(mem_poll r.timer r.results a).mp ha]
      · rintro rfl
        exact ⟨arg r.timer, (mem_poll r.timer r.results _).mpr rfl, rfl⟩

/-- Whatever the rounds find and however often the calls are interrupted: all arguments are right
exactly if the timer's values are safe. -/
theorem idle_timeouts (rounds : List Round) :
    (∀ c ∈ idle rounds, Right c.1 c.2) ↔ ∀ r ∈ polled rounds, Safe r.timer := by
  constructor
  · intro h r hr
    have hmem := (mem_idle rounds (r.timer, arg r.timer)).mpr ⟨r, hr, rfl⟩
    exact (right_arg_iff r.timer).mp (h _ hmem)
  · intro h c hc
    obtain ⟨r, hr, rfl⟩ := (mem_idle rounds c).mp hc
    exact (right_arg_iff r.timer).mpr (h r hr)

/-- With `2 ^ 31` the call blocks without limit, with `2 ^ 32` it does not wait at all. -/
theorem idle_blocks :
    idle [{ timer := 2147483648, results := [{ ret := 0 }] }, { timer := 4294967296 }] =
        [(2147483648, BitVec.ofInt 32 (-2147483648)), (4294967296, 0)] ∧
      ¬ Right 2147483648 (BitVec.ofInt 32 (-2147483648)) ∧ ¬ Right 4294967296 0 := by
  refine ⟨by decide, fun h => ?_, fun h => ?_⟩
  · exact absurd h.nonneg (by decide)
  · exact absurd h.eq_min (by decide)

end Ddg.Idle
