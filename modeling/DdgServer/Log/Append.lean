import DdgServer.Log.Format

/-!
# Patterns put together

A pattern that is the concatenation of two accepted ones is read as both, one after the other,
unless the first ends in an item without braces and the second goes on with it: a letter or a `'}'`
goes into the name, and a `'{'` begins a format.

* `Parses.append`: the reading of a concatenation.
* `Parses.append_bare`, `Parses.behind_brace`: what else a concatenation can be read as.
* `append_exact`: when the formatter of a concatenation prints what those of its parts print.
-/

namespace Ddg

namespace LogFormatter

variable {p q : Text} {ss ts : List Segment}

/-! ## Readings of a concatenation -/

theorem Parses.eq_nil (h : Parses p []) : p = [] := by
  cases h
  rfl

theorem EndsName.append (h : EndsName p) (hq : p = [] → EndsName q) : EndsName (p ++ q) := by
  cases p with
  | nil => exact hq rfl
  | cons c p => exact h

/-- The last segment is not an item without braces, or `q` does not go on with it. -/
theorem Parses.append (h : Parses p ss) (hq : Parses q ts)
    (hend : ∀ rs name, ss = rs ++ [.item name none] → EndsName q) :
    Parses (p ++ q) (ss ++ ts) := by
  induction h with
  | nil => exact hq
  | literal hc _ ih =>
    exact .literal hc (ih fun rs name hs => hend (_ :: rs) name (congrArg (_ :: ·) hs))
  | percent _ ih =>
    exact .percent (ih fun rs name hs => hend (_ :: rs) name (congrArg (_ :: ·) hs))
  | @bare name p ss hk he hp ih =>
    refine .bare hk (he.append ?_)
      (ih fun rs name' hs => hend (_ :: rs) name' (congrArg (_ :: ·) hs))
    rintro rfl
    cases hp
    exact hend [] name rfl
  | @braced name fmt p ss hk hf _ ih =>
    have := ih fun rs name' hs => hend (_ :: rs) name' (congrArg (_ :: ·) hs)
    simpa using Parses.braced hk hf this

/-- Two texts cut at their first `'}'`. -/
theorem split_brace {f g r s : Text} (hf : '}' ∉ f) (hg : '}' ∉ g)
    (h : f ++ '}' :: r = g ++ '}' :: s) : f = g ∧ r = s := by
  induction f generalizing g with
  | nil =>
    cases g with
    | nil => exact ⟨rfl, (List.cons.inj h).2⟩
    | cons c g => exact absurd ((List.cons.inj h).1 ▸ List.mem_cons_self) hg
  | cons c f ih =>
    cases g with
    | nil => exact absurd ((List.cons.inj h).1 ▸ List.mem_cons_self) hf
    | cons d g =>
      obtain ⟨rfl, htail⟩ := List.cons.inj h
      obtain ⟨rfl, rfl⟩ := ih (fun hm => hf (List.mem_cons_of_mem _ hm))
        (fun hm => hg (List.mem_cons_of_mem _ hm)) htail
      exact ⟨rfl, rfl⟩

theorem Parses.known {name : Char} {fmt : Option Text} (h : Parses p ss)
    (hm : Segment.item name fmt ∈ ss) : (itemOf name).isSome := by
  induction h with
  | nil => cases hm
  | literal _ _ ih | percent _ ih =>
    rcases List.mem_cons.mp hm with hm | hm
    · cases hm
    · exact ih hm
  | bare hk _ _ ih | braced hk _ _ ih =>
    rcases List.mem_cons.mp hm with hm | hm
    · cases hm
      exact hk
    · exact ih hm

/-- A `'%'` and the name of an item: what follows is the rest, or a format and the rest. -/
theorem Parses.of_name {name : Char} (hk : (itemOf name).isSome)
    (h : Parses ('%' :: name :: p) ss) :
    (EndsName p ∧ ∃ ss', ss = .item name none :: ss' ∧ Parses p ss') ∨
      ∃ fmt r ss', p = '{' :: (fmt ++ '}' :: r) ∧ '}' ∉ fmt ∧ ss = .item name (some fmt) :: ss' ∧
        Parses r ss' := by
  cases h with
  | literal hc _ => exact absurd rfl hc
  | percent _ => exact absurd rfl (ne_percent_of_itemOf hk)
  | bare _ he h => exact .inl ⟨he, _, rfl, h⟩
  | braced _ hf h => exact .inr ⟨_, _, _, rfl, hf, rfl, h⟩

/-- A reading of a concatenation reads its first part as it is read alone, up to an item without
braces at its end. -/
theorem Parses.append_bare {name : Char} (h : Parses p (ss ++ [.item name none]))
    (h' : Parses (p ++ q) ts) :
    ∃ rs, ts = ss ++ rs ∧ Parses ('%' :: name :: q) rs := by
  generalize hx : ss ++ [Segment.item name none] = xs at h
  induction h generalizing ss ts with
  | nil => simp at hx
  | literal hc _ ih =>
    obtain ⟨ts', rfl, ht⟩ := h'.of_literal hc
    cases ss with
    | nil => cases hx
    | cons x ss =>
      obtain ⟨rfl, hxs⟩ := List.cons.inj hx
      obtain ⟨rs, rfl, hr⟩ := ih ht hxs
      exact ⟨rs, rfl, hr⟩
  | percent _ ih =>
    obtain ⟨ts', rfl, ht⟩ := h'.of_percent
    cases ss with
    | nil => cases hx
    | cons x ss =>
      obtain ⟨rfl, hxs⟩ := List.cons.inj hx
      obtain ⟨rs, rfl, hr⟩ := ih ht hxs
      exact ⟨rs, rfl, hr⟩
  | @bare n p _ hk he hp ih =>
    cases ss with
    | nil =>
      -- the item at the end
      obtain ⟨hx, rfl⟩ := List.cons.inj hx
      cases hx
      rw [hp.eq_nil] at h'
      exact ⟨ts, rfl, h'⟩
    | cons x ss =>
      obtain ⟨rfl, hxs⟩ := List.cons.inj hx
      rcases h'.of_name hk with ⟨-, ts', rfl, ht⟩ | ⟨fmt, r, ts', hr, -⟩
      · obtain ⟨rs, rfl, hr⟩ := ih ht hxs
        exact ⟨rs, rfl, hr⟩
      · -- no brace follows the item
        cases p with
        | nil =>
          cases hp
          simp at hxs
        | cons c p => exact absurd (List.cons.inj hr).1 (he c rfl).2.1
  | @braced n fmt p _ hk hf _ ih =>
    cases ss with
    | nil => cases hx
    | cons x ss =>
      obtain ⟨rfl, hxs⟩ := List.cons.inj hx
      rcases h'.of_name hk with ⟨he, -⟩ | ⟨fmt', r, ts', hr, hf', rfl, ht⟩
      · exact absurd rfl (he '{' rfl).2.1
      · have hcut : fmt ++ '}' :: (p ++ q) = fmt' ++ '}' :: r := by
          simpa using (List.cons.inj hr).2
        obtain ⟨rfl, rfl⟩ := split_brace hf hf' hcut
        obtain ⟨rs, rfl, hr⟩ := ih ht hxs
        exact ⟨rs, rfl, hr⟩

/-- What stands behind a `'}'` is read as it is read alone. -/
theorem Parses.behind_brace {f r : Text} (hf : '}' ∉ f) (h : Parses (f ++ '}' :: r) ss) :
    ∃ rs ts, ss = rs ++ ts ∧ Parses r ts := by
  generalize hx : f ++ '}' :: r = x at h
  induction h generalizing f with
  | nil => simp at hx
  | @literal c p ss hc hp ih =>
    cases f with
    | nil =>
      obtain ⟨-, rfl⟩ := List.cons.inj hx
      exact ⟨[_], ss, rfl, hp⟩
    | cons d f =>
      obtain ⟨-, hx⟩ := List.cons.inj hx
      obtain ⟨rs, ts, rfl, ht⟩ := ih (fun hm => hf (List.mem_cons_of_mem _ hm)) hx
      exact ⟨_ :: rs, ts, rfl, ht⟩
  | percent _ ih =>
    cases f with
    | nil => cases hx
    | cons d f =>
      obtain ⟨-, hx⟩ := List.cons.inj hx
      obtain ⟨rs, ts, rfl, ht⟩ := ih (fun hm => hf (List.mem_cons_of_mem _ hm)) hx
      exact ⟨_ :: rs, ts, rfl, ht⟩
  | @bare name p ss hk he _ ih =>
    rcases f with _ | ⟨d, _ | ⟨n, f⟩⟩
    · cases hx
    · -- the `'}'` is no name
      obtain ⟨-, hx⟩ := List.cons.inj hx
      obtain ⟨rfl, -⟩ := List.cons.inj hx
      cases hk
    · obtain ⟨-, hx⟩ := List.cons.inj hx
      obtain ⟨-, hx⟩ := List.cons.inj hx
      obtain ⟨rs, ts, rfl, ht⟩ := ih
        (fun hm => hf (List.mem_cons_of_mem _ (List.mem_cons_of_mem _ hm))) hx
      exact ⟨_ :: rs, ts, rfl, ht⟩
  | @braced name fmt p ss hk hfmt hp _ =>
    rcases f with _ | ⟨d, _ | ⟨n, _ | ⟨b, f⟩⟩⟩
    · cases hx
    · obtain ⟨-, hx⟩ := List.cons.inj hx
      obtain ⟨rfl, -⟩ := List.cons.inj hx
      cases hk
    · simp at hx
    · simp only [List.cons_append, List.cons.injEq] at hx
      have hf' : '}' ∉ f := fun hm => hf (by simp [hm])
      obtain ⟨-, rfl⟩ := split_brace hf' hfmt hx.2.2.2
      exact ⟨[_], ss, rfl, hp⟩

/-! ## What a concatenation prints -/

/-- The pattern ends in an item without braces. -/
def EndsBare (p : Text) : Prop := ∃ ss name, Parses p (ss ++ [.item name none])

/-- The formatter of the concatenation prints what those of the two parts print. -/
def PrintsBoth (p q : Text) : Prop := ∃ f g h, new p = .ok f ∧ new q = .ok g ∧
  new (p ++ q) = .ok h ∧ ∀ strftime logger level event,
    format strftime h logger level event =
      format strftime f logger level event ++ format strftime g logger level event

section Output

variable (strftime : Text → ℕ → Text) (level : ℕ) (event : LogEvent)

theorem output_append (ss ts : List Segment) :
    output strftime level event (ss ++ ts) =
      output strftime level event ss ++ output strftime level event ts :=
  List.flatMap_append

/-- Two readings of a text print the same. -/
theorem Parses.output_eq (h : Parses p ss) (h' : Parses p ts) :
    output strftime level event ss = output strftime level event ts := by
  obtain ⟨hn, hs⟩ := format_new strftime event.logger level event h
  obtain ⟨hn', ht⟩ := format_new strftime event.logger level event h'
  rw [← hs, ← ht, Except.ok.inj (hn.symm.trans hn')]

end Output

theorem new_parses (h : Parses p ss) : new p = .ok ⟨p, madeItems [] ss, false⟩ := by
  rw [new_accepted (accepted_iff.mpr ⟨ss, h⟩), initPattern_parses h, List.nil_append]

/-- The formatters of the readings. -/
theorem printsBoth_iff {us : List Segment} (hp : Parses p ss) (hq : Parses q ts)
    (h : Parses (p ++ q) us) :
    PrintsBoth p q ↔ ∀ strftime level event,
      output strftime level event us =
        output strftime level event ss ++ output strftime level event ts := by
  have hformat : ∀ {p ss}, Parses p ss → ∀ strftime logger level event,
      format strftime ⟨p, madeItems [] ss, false⟩ logger level event =
        output strftime level event ss :=
    fun h strftime logger level event => (format_new strftime logger level event h).2
  constructor
  · rintro ⟨f, g, k, hf, hg, hk, hall⟩ strftime level event
    cases (new_parses hp).symm.trans hf
    cases (new_parses hq).symm.trans hg
    cases (new_parses h).symm.trans hk
    have := hall strftime event.logger level event
    rwa [hformat h, hformat hp, hformat hq] at this
  · intro hall
    refine ⟨_, _, _, new_parses hp, new_parses hq, new_parses h,
      fun strftime logger level event => ?_⟩
    rw [hformat h, hformat hp, hformat hq]
    exact hall strftime level event

/-- An event without texts. -/
def blank : LogEvent where
  logger := Logger.new []
  file := []
  line := 0
  elapse := 0
  threadId := 0
  fiberId := 0
  time := 0
  content := []

/-- **Patterns put together.** For accepted patterns `p` and `q`, the formatter of `p ++ q` prints
what those of `p` and `q` print exactly if `p` does not end in an item without braces or `q` begins
with neither a letter nor a brace. -/
theorem append_exact (hp : Accepted p) (hq : Accepted q) :
    PrintsBoth p q ↔ (EndsBare p → EndsName q) := by
  obtain ⟨ss, hp⟩ := accepted_iff.mp hp
  obtain ⟨ts, hq⟩ := accepted_iff.mp hq
  constructor
  · rintro hboth ⟨rs, name, hbare⟩
    obtain ⟨us, h⟩ : ∃ us, Parses (p ++ q) us := by
      obtain ⟨-, -, k, -, -, hk, -⟩ := hboth
      by_contra hno
      rw [new_rejected (fun ha => hno (accepted_iff.mp ha))] at hk
      cases hk
    obtain ⟨us, rfl, hu⟩ := hbare.append_bare h
    have hk := hbare.known (List.mem_append_right rs List.mem_cons_self)
    rcases hu.of_name hk with ⟨he, -⟩ | ⟨fmt, r, us, rfl, hf, rfl, hr⟩
    · exact he
    · -- the second part begins with a format: its `'{'` is not printed
      obtain ⟨ts, rfl, ht⟩ := hq.of_literal (by decide)
      obtain ⟨vs, ws, rfl, hw⟩ := ht.behind_brace hf
      have heq := (printsBoth_iff hp hq h).mp hboth (fun _ _ => []) 0 blank
      rw [hp.output_eq (fun _ _ => []) 0 blank hbare, output_append, output_append] at heq
      have hlen := congrArg List.length heq
      have htail := congrArg List.length (hr.output_eq (fun _ _ => []) 0 blank hw)
      simp only [output, List.flatMap_cons, List.flatMap_append, List.length_append,
        Segment.output, List.flatMap_nil, List.length_nil, List.length_singleton] at hlen htail
      omega
  · intro hend
    have h := hp.append hq fun rs name hs => hend ⟨rs, name, hs ▸ hp⟩
    exact (printsBoth_iff hp hq h).mpr fun strftime level event =>
      output_append strftime level event ss ts

/-- A blank ends the item; a brace goes on with it. -/
theorem append_exact_message : PrintsBoth ['%', 'm'] [' ', '%', 'p'] ∧
    ¬ PrintsBoth ['%', 'm'] ['{', 'p', '}'] := by
  have hm : Accepted ['%', 'm'] := by decide
  constructor
  · exact (append_exact hm (by decide)).mpr fun _ => by simp [EndsName]
  · intro h
    have hbare : EndsBare ['%', 'm'] := ⟨[], 'm', .bare (by decide) (by simp [EndsName]) .nil⟩
    exact ((append_exact hm (by decide)).mp h hbare '{' rfl).2.1 rfl

end LogFormatter

end Ddg
