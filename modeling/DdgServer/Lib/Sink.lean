import DdgServer.Lib.Refine

/-!
# Words that threads write under locks

Each thread has jobs: to write a word to a sink while it holds a lock. It takes the lock, writes the
word letter by letter, and releases the lock. The history of a run is the jobs that were done.

* `order`: what a thread has done, and what it has still to do.
* `whole`: a sink whose jobs all have one lock gets the words one after the other, none of them torn
  apart by another.
* `finished`: what it has when the threads are done.
-/

namespace Interleave.Sink

/-- Write `word` to `sink` under `lock`. -/
structure Job (κ ι γ : Type) where
  lock : κ
  sink : ι
  word : List γ

/-- A thread: its jobs, and what is left of the word of the first one while it holds the lock. -/
structure Writer (κ ι γ : Type) where
  jobs : List (Job κ ι γ)
  rest : Option (List γ)

structure State (θ κ ι γ : Type) where
  writers : θ → Writer κ ι γ
  holder : κ → Option θ
  out : ι → List γ

inductive Label (θ : Type)
  | enter (t : θ)
  | put (t : θ)
  | leave (t : θ)

variable {θ κ ι γ : Type} [DecidableEq θ] [DecidableEq κ] [DecidableEq ι]

def step (s : State θ κ ι γ) : Label θ → Option (State θ κ ι γ)
  | .enter t =>
    match s.writers t with
    | ⟨j :: js, none⟩ =>
      if s.holder j.lock = none then
        some { s with writers := Function.update s.writers t ⟨j :: js, some j.word⟩
                      holder := Function.update s.holder j.lock (some t) }
      else none
    | _ => none
  | .put t =>
    match s.writers t with
    | ⟨j :: js, some (c :: cs)⟩ =>
      some { s with writers := Function.update s.writers t ⟨j :: js, some cs⟩
                    out := Function.update s.out j.sink (s.out j.sink ++ [c]) }
    | _ => none
  | .leave t =>
    match s.writers t with
    | ⟨j :: js, some []⟩ =>
      some { s with writers := Function.update s.writers t ⟨js, none⟩
                    holder := Function.update s.holder j.lock none }
    | _ => none

/-- The job that a step completes. -/
def done (s : State θ κ ι γ) : Label θ → List (θ × Job κ ι γ)
  | .leave t => ((s.writers t).jobs.take 1).map (t, ·)
  | .enter _ | .put _ => []

/-- Before the first step of the threads with the jobs `prog`. -/
def start (prog : θ → List (Job κ ι γ)) : State θ κ ι γ :=
  ⟨fun t => ⟨prog t, none⟩, fun _ => none, fun _ => []⟩

def sys (prog : θ → List (Job κ ι γ)) : Sys (State θ κ ι γ) (Label θ) where
  init s := s = start prog
  step := step

/-! ## One step -/

/-- What a step does (with the job that it completes). -/
inductive Step (s s' : State θ κ ι γ) : List (θ × Job κ ι γ) → Prop
  | enter {t : θ} {j : Job κ ι γ} {js : List (Job κ ι γ)} :
    s.writers t = ⟨j :: js, none⟩ → s.holder j.lock = none →
    s' = ⟨Function.update s.writers t ⟨j :: js, some j.word⟩,
      Function.update s.holder j.lock (some t), s.out⟩ → Step s s' []
  | put {t : θ} {j : Job κ ι γ} {js : List (Job κ ι γ)} {c : γ} {cs : List γ} :
    s.writers t = ⟨j :: js, some (c :: cs)⟩ →
    s' = ⟨Function.update s.writers t ⟨j :: js, some cs⟩, s.holder,
      Function.update s.out j.sink (s.out j.sink ++ [c])⟩ → Step s s' []
  | leave {t : θ} {j : Job κ ι γ} {js : List (Job κ ι γ)} :
    s.writers t = ⟨j :: js, some []⟩ →
    s' = ⟨Function.update s.writers t ⟨js, none⟩, Function.update s.holder j.lock none, s.out⟩ →
    Step s s' [(t, j)]

variable {s s' : State θ κ ι γ} {a : Label θ} {t u : θ} {j : Job κ ι γ} {js : List (Job κ ι γ)}
  {prog : θ → List (Job κ ι γ)} {his : List (θ × Job κ ι γ)} {i : ι} {k : κ}

theorem step_cases (h : step s a = some s') : Step s s' (done s a) := by
  cases a with
  | enter t =>
    simp only [step] at h
    split at h
    · rename_i hw
      split at h
      · exact .enter hw ‹_› (Option.some.inj h).symm
      · cases h
    · cases h
  | put t =>
    simp only [step] at h
    split at h
    · exact .put ‹_› (Option.some.inj h).symm
    · cases h
  | leave t =>
    simp only [step] at h
    split at h
    · rename_i hw
      simp only [done, hw, List.take_succ_cons, List.take_zero, List.map_cons, List.map_nil]
      exact .leave hw (Option.some.inj h).symm
    · cases h

/-! ## The locks -/

/-- The threads with a word begun hold its lock. -/
def Locked (s : State θ κ ι γ) : Prop :=
  ∀ t j js r, s.writers t = ⟨j :: js, some r⟩ → s.holder j.lock = some t

theorem Locked.step (hl : Locked s) {x : List (θ × Job κ ι γ)} (h : Step s s' x) : Locked s' := by
  cases h with
  | @enter t j js hw hfree hs' =>
    subst hs'
    intro u j' js' r hu
    obtain ⟨rfl, he⟩ | ⟨hne, hu⟩ := update_cases hu
    · cases he
      exact Function.update_self ..
    · have hh := hl u j' js' r hu
      have hk : j'.lock ≠ j.lock := by
        intro hk
        rw [hk, hfree] at hh
        cases hh
      exact (Function.update_of_ne hk ..).trans hh
  | @put t j js c cs hw hs' =>
    subst hs'
    intro u j' js' r hu
    obtain ⟨rfl, he⟩ | ⟨-, hu⟩ := update_cases hu
    · cases he
      exact hl u j js _ hw
    · exact hl u j' js' r hu
  | @leave t j js hw hs' =>
    subst hs'
    intro u j' js' r hu
    obtain ⟨-, he⟩ | ⟨hne, hu⟩ := update_cases hu
    · cases he
    · have hh := hl u j' js' r hu
      have hk : j'.lock ≠ j.lock := by
        intro hk
        rw [hk, hl t j js _ hw] at hh
        exact hne (Option.some.inj hh).symm
      exact (Function.update_of_ne hk ..).trans hh

/-! ## The jobs of a thread -/

/-- Each thread has done its jobs up to those that it still has. -/
def InOrder (prog : θ → List (Job κ ι γ)) (his : List (θ × Job κ ι γ)) (s : State θ κ ι γ) : Prop :=
  ∀ t, (his.filter (·.1 = t)).map Prod.snd ++ (s.writers t).jobs = prog t

theorem InOrder.step {x : List (θ × Job κ ι γ)} (ho : InOrder prog his s) (h : Step s s' x) :
    InOrder prog (his ++ x) s' := by
  intro u
  rw [List.filter_append, List.map_append, ← ho u]
  cases h with
  | @enter t j js hw _ hs' =>
    subst hs'
    by_cases hu : u = t
    · subst hu
      simp [hw]
    · simp [hu]
  | @put t j js c cs hw hs' =>
    subst hs'
    by_cases hu : u = t
    · subst hu
      simp [hw]
    · simp [hu]
  | @leave t j js hw hs' =>
    subst hs'
    by_cases hu : u = t
    · subst hu
      simp [hw]
    · simp [hu, Ne.symm hu]

/-- **What a thread has done** is the beginning of its jobs, in their order; the rest it has still
to do. -/
theorem order (h : (sys prog).Shows Sys.free done (start prog) his s) : InOrder prog his s :=
  h.keeps (fun _ _ _ _ ho _ hs => ho.step (step_cases hs)) fun _ => rfl

/-! ## The words in a sink -/

/-- The sink that the thread is writing a word to. -/
def Writer.at (x : Writer κ ι γ) : Option ι :=
  match x with
  | ⟨j :: _, some _⟩ => some j.sink
  | _ => none

/-- `w` is the part of a word that a thread has written to the sink so far. -/
def Begun (s : State θ κ ι γ) (i : ι) (w : List γ) : Prop :=
  (w = [] ∧ ∀ t, (s.writers t).at ≠ some i) ∨
    ∃ t j js r, s.writers t = ⟨j :: js, some r⟩ ∧ j.sink = i ∧ j.word = w ++ r

/-- The words of the jobs done, in the order in which they were done. -/
def words (i : ι) (his : List (θ × Job κ ι γ)) : List γ :=
  (his.filter (·.2.sink = i)).flatMap (·.2.word)

omit [DecidableEq θ] [DecidableEq κ] in
theorem words_append (i : ι) (his his' : List (θ × Job κ ι γ)) :
    words i (his ++ his') = words i his ++ words i his' := by
  simp [words]

/-- The sink has the words of the jobs done, and the beginning of at most one more. -/
def Whole (i : ι) (his : List (θ × Job κ ι γ)) (s : State θ κ ι γ) : Prop :=
  ∃ w, s.out i = words i his ++ w ∧ Begun s i w

omit [DecidableEq κ] [DecidableEq ι] in
/-- Another sink is none of a thread's business. -/
theorem Begun.other {w : List γ} {x : Writer κ ι γ} {f : κ → Option θ} {o : ι → List γ}
    (hb : Begun s i w) (ht : (s.writers t).at ≠ some i) (hx : x.at ≠ some i) :
    Begun ⟨Function.update s.writers t x, f, o⟩ i w := by
  obtain ⟨rfl, hno⟩ | ⟨u, j, js, r, hu, hj, hw⟩ := hb
  · refine .inl ⟨rfl, fun u => ?_⟩
    by_cases hu : u = t
    · subst hu
      simpa using hx
    · simpa [hu] using hno u
  · refine .inr ⟨u, j, js, r, ?_, hj, hw⟩
    have hne : u ≠ t := by
      rintro rfl
      exact ht (by rw [hu, Writer.at, hj])
    exact (Function.update_of_ne hne ..).trans hu

omit [DecidableEq θ] [DecidableEq κ] [DecidableEq ι] in
/-- The thread that writes to the sink is the holder of its lock. -/
theorem Locked.at_eq (hl : Locked s)
    (hone : ∀ t, ∀ j ∈ (s.writers t).jobs, j.sink = i → j.lock = k)
    (h : (s.writers t).at = some i) : s.holder k = some t := by
  cases hw : s.writers t with
  | mk js r =>
    cases js with
    | nil =>
      rw [hw] at h
      cases h
    | cons j js =>
      cases r with
      | none =>
        rw [hw] at h
        cases h
      | some r =>
        rw [hw] at h
        rw [← hone t j (by simp [hw]) (Option.some.inj h)]
        exact hl t j js r hw

omit [DecidableEq θ] [DecidableEq κ] [DecidableEq ι] in
/-- Two threads that write to the sink both hold its lock. -/
theorem Locked.unique (hl : Locked s)
    (hone : ∀ t, ∀ j ∈ (s.writers t).jobs, j.sink = i → j.lock = k)
    (ht : (s.writers t).at = some i) (hu : (s.writers u).at = some i) : u = t :=
  Option.some.inj ((hl.at_eq hone hu).symm.trans (hl.at_eq hone ht))

omit [DecidableEq θ] [DecidableEq κ] [DecidableEq ι] in
/-- What the thread that writes to the sink has written of its word. -/
theorem Begun.word {w r : List γ} (hb : Begun s i w) (hl : Locked s)
    (hone : ∀ t, ∀ j ∈ (s.writers t).jobs, j.sink = i → j.lock = k)
    (ht : s.writers t = ⟨j :: js, some r⟩) (hi : j.sink = i) : j.word = w ++ r := by
  have hat : (s.writers t).at = some i := by rw [ht, Writer.at, hi]
  obtain ⟨-, hno⟩ | ⟨u, j', js', r', hu, hj', hword⟩ := hb
  · exact absurd hat (hno t)
  · obtain rfl := hl.unique hone hat (by rw [hu, Writer.at, hj'])
    rw [ht] at hu
    cases hu
    exact hword

theorem Whole.step {x : List (θ × Job κ ι γ)} (hw : Whole i his s) (hl : Locked s)
    (hone : ∀ t, ∀ j ∈ (s.writers t).jobs, j.sink = i → j.lock = k) (h : Step s s' x) :
    Whole i (his ++ x) s' := by
  obtain ⟨w, hout, hb⟩ := hw
  rw [Whole, words_append]
  cases h with
  | @enter t j js ht hfree hs' =>
    subst hs'
    have hat : (s.writers t).at ≠ some i := by simp [ht, Writer.at]
    by_cases hi : j.sink = i
    · have hk : j.lock = k := hone t j (by simp [ht]) hi
      obtain ⟨rfl, -⟩ | ⟨u, j', js', r, hu, hj', -⟩ := hb
      · exact ⟨[], by simpa [words] using hout,
          .inr ⟨t, j, js, j.word, Function.update_self .., hi, rfl⟩⟩
      · -- nobody holds the lock
        have := hl.at_eq hone (t := u) (by rw [hu, Writer.at, hj'])
        rw [← hk, hfree] at this
        cases this
    · refine ⟨w, by simpa [words] using hout, hb.other hat ?_⟩
      simpa [Writer.at] using hi
  | @put t j js c cs ht hs' =>
    subst hs'
    by_cases hi : j.sink = i
    · refine ⟨w ++ [c], ?_, .inr ⟨t, j, js, cs, Function.update_self .., hi, ?_⟩⟩
      · simp [hi, hout, words]
      · rw [hb.word hl hone ht hi, List.append_assoc, List.singleton_append]
    · have hat : (s.writers t).at ≠ some i := by simpa [ht, Writer.at] using hi
      refine ⟨w, ?_, hb.other hat (by simpa [Writer.at] using hi)⟩
      simpa [words, Function.update_of_ne (Ne.symm hi)] using hout
  | @leave t j js ht hs' =>
    subst hs'
    by_cases hi : j.sink = i
    · have hat : (s.writers t).at = some i := by rw [ht, Writer.at, hi]
      refine ⟨[], ?_, .inl ⟨rfl, fun v hv => ?_⟩⟩
      · simp [hi, hout, words, hb.word hl hone ht hi]
      · by_cases hvt : v = t
        · subst hvt
          simp [Writer.at] at hv
        · refine hvt (hl.unique hone hat ?_)
          simpa [hvt] using hv
    · have hat : (s.writers t).at ≠ some i := by simpa [ht, Writer.at] using hi
      refine ⟨w, ?_, hb.other hat (by simp [Writer.at])⟩
      simpa [words, hi] using hout

/-- **The words are whole.** A sink whose jobs all have one lock has the words of the jobs done, one
after the other, and the beginning of at most one more. -/
theorem whole (h : (sys prog).Shows Sys.free done (start prog) his s)
    (hone : ∀ t, ∀ j ∈ prog t, j.sink = i → j.lock = k) : Whole i his s := by
  refine (h.keeps (P := fun his s => (InOrder prog his s ∧ Locked s) ∧ Whole i his s) ?_ ?_).2
  · rintro his s a s' ⟨⟨ho, hl⟩, hw⟩ - hs
    have hs := step_cases hs
    refine ⟨⟨ho.step hs, hl.step hs⟩, hw.step hl (fun t j hj => hone t j ?_) hs⟩
    rw [← ho t]
    exact List.mem_append_right _ hj
  · refine ⟨⟨fun _ => rfl, fun t j js r he => ?_⟩, [], rfl, ?_⟩
    · cases congrArg Writer.rest he
    · exact .inl ⟨rfl, fun _ he => by simp [start, Writer.at] at he⟩

/-- **When the threads are done**, each has done all of its jobs, and the sink has their words. -/
theorem finished (h : (sys prog).Shows Sys.free done (start prog) his s)
    (hone : ∀ t, ∀ j ∈ prog t, j.sink = i → j.lock = k) (hend : ∀ t, (s.writers t).jobs = []) :
    s.out i = words i his ∧ ∀ t, (his.filter (·.1 = t)).map Prod.snd = prog t := by
  constructor
  · obtain ⟨w, hout, ⟨rfl, -⟩ | ⟨t, j, js, r, ht, -, -⟩⟩ := whole h hone
    · rw [hout, List.append_nil]
    · have := hend t
      rw [ht] at this
      cases this
  · intro t
    have := order h t
    rwa [hend t, List.append_nil] at this

end Interleave.Sink
