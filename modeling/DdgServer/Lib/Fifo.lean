import DdgServer.Lib.Refine

/-!
# A queue with servers

Items arrive at the back of a queue. A server without an item may take the first one; it finishes it
or puts it back, and then it is at the back again.

* `Fifo.sys`: the queue as a system.
* `Fifo.order`: what was queued or joined the queue was served in this order, or is queued.
* `Fifo.served_get`: the item with `k` others in front of it is served after `k` others, whatever
  joins the queue meanwhile.
-/

namespace Interleave

/-- The queue, and the items that the servers have. -/
structure Fifo (ω τ : Type) where
  queue : List τ := []
  held : ω → Option τ := fun _ => none

namespace Fifo

/-- What happens to the queue. -/
inductive Event (ω τ : Type) where
  | arrive (t : τ)
  | serve (w : ω) (t : τ)
  | putBack (w : ω) (t : τ)
  | finish (w : ω)
  deriving DecidableEq

variable {ω τ : Type}

/-- The item that joins the queue. -/
def Event.joins : Event ω τ → Option τ
  | .arrive t | .putBack _ t => some t
  | _ => none

/-- The item that is served. -/
def Event.serves : Event ω τ → Option τ
  | .serve _ t => some t
  | _ => none

def joined (h : List (Event ω τ)) : List τ := h.filterMap Event.joins

def served (h : List (Event ω τ)) : List τ := h.filterMap Event.serves

variable [DecidableEq ω] [DecidableEq τ]

def step (q : Fifo ω τ) : Event ω τ → Option (Fifo ω τ)
  | .arrive t => some { q with queue := q.queue ++ [t] }
  | .serve w t =>
    if q.held w = none ∧ q.queue.head? = some t then
      some { queue := q.queue.tail, held := Function.update q.held w (some t) }
    else none
  | .putBack w t =>
    if q.held w = some t then
      some { queue := q.queue ++ [t], held := Function.update q.held w none }
    else none
  | .finish w =>
    if (q.held w).isSome then some { q with held := Function.update q.held w none } else none

variable (ω τ) in
def sys : Sys (Fifo ω τ) (Event ω τ) where
  init q := q = {}
  step q a := q.step a

theorem runBy_arrive (q : Fifo ω τ) (ts : List τ) :
    (sys ω τ).runBy Sys.free q (ts.map .arrive) = some { q with queue := q.queue ++ ts } := by
  induction ts generalizing q with
  | nil => exact congrArg (fun l => some { q with queue := l }) (List.append_nil _).symm
  | cons t ts ih =>
    rw [List.map_cons, Sys.runBy, if_pos (show Sys.free q (Event.arrive t) from trivial)]
    refine (ih { q with queue := q.queue ++ [t] }).trans ?_
    rw [List.append_assoc]
    rfl

variable {q q' : Fifo ω τ} {h : List (Event ω τ)} {a : Event ω τ}

theorem step_order (hs : q.step a = some q') :
    q.queue ++ a.joins.toList = a.serves.toList ++ q'.queue := by
  cases a with
  | arrive t =>
    cases hs
    rfl
  | serve w t =>
    simp only [step] at hs
    split at hs
    · rename_i ht
      obtain ⟨rest, hq⟩ := List.head?_eq_some_iff.mp ht.2
      cases hs
      show q.queue ++ [] = [t] ++ q.queue.tail
      rw [hq]
      exact List.append_nil _
    · cases hs
  | putBack w t =>
    simp only [step] at hs
    split at hs
    · cases hs
      rfl
    · cases hs
  | finish w =>
    simp only [step] at hs
    split at hs
    · cases hs
      exact List.append_nil _
    · cases hs

/-- **First come, first served.** -/
theorem order (hr : (sys ω τ).runBy Sys.free q h = some q') :
    q.queue ++ joined h = served h ++ q'.queue := by
  induction h generalizing q with
  | nil =>
    cases hr
    exact List.append_nil _
  | cons a h ih =>
    rw [Sys.runBy, if_pos (show Sys.free q a from trivial)] at hr
    obtain ⟨q₁, hs, hr⟩ := Option.bind_eq_some_iff.mp hr
    have h₁ := step_order hs
    have hj : joined (a :: h) = a.joins.toList ++ joined h := by
      cases hx : a.joins <;> simp [joined, hx]
    have hv : served (a :: h) = a.serves.toList ++ served h := by
      cases hx : a.serves <;> simp [served, hx]
    rw [hj, hv, ← List.append_assoc, h₁, List.append_assoc, ih hr, List.append_assoc]

/-- The item with `k` others in front of it is served after `k` others. -/
theorem served_get {k : ℕ} (hr : (sys ω τ).runBy Sys.free q h = some q')
    (hk : k < q.queue.length) (hn : k < (served h).length) : (served h)[k]? = q.queue[k]? := by
  have := congrArg (·[k]?) (order hr)
  simpa [List.getElem?_append_left hk, List.getElem?_append_left hn] using this.symm

end Fifo
end Interleave
