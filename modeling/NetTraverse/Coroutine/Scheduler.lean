/-!
# The scheduler and `current`

`scheduler.hpp` and the part of `coroutine.cpp` that decides who runs: the
global `current` and the queue of `round_robin_scheduler<coroutine *>`. The
register and stack side of the same functions is in `Machine`.
-/

namespace NetTraverse

/-- The identity of a coroutine object. -/
abbrev CoId := Nat

/-- A `coroutine *`; `none` is `NULL`. -/
abbrev CoPtr := Option CoId

/-- `current` and `sched->queue_`, front first. -/
structure Sched where
  current : CoId
  queue : List CoPtr
deriving DecidableEq, Repr

namespace Sched

def enqueue (s : Sched) (t : CoPtr) : Sched :=
  { s with queue := s.queue ++ [t] }

/-- `dequeue` has no test for an empty list: `front` and `pop_front` are
undefined there, which is `none`. -/
def dequeue (s : Sched) : Option (CoPtr × Sched) :=
  match s.queue with
  | [] => none
  | t :: rest => some (t, { s with queue := rest })

def num (s : Sched) : Nat := s.queue.length

/-- `co_post` hands its pointer on unchecked. -/
def coPost (s : Sched) (co : CoPtr) : Sched := s.enqueue co

/-- `co_sched`: take the next coroutine, abort on `NULL`, make it current. -/
def coSched (s : Sched) : Option Sched := do
  let (next, s) ← s.dequeue
  let next ← next
  some { s with current := next }

/-- `_co_resched`. -/
def coResched (s : Sched) : Option Sched :=
  (s.enqueue (some s.current)).coSched

/-- `_co_yield`. -/
def coYield (s : Sched) : Option Sched := s.coSched

/-- All that `co_sched` does to the scheduler: the front of the queue, which
is no `NULL`, becomes current. -/
theorem coSched_eq_some {s s' : Sched} :
    s.coSched = some s' ↔ s.queue = some s'.current :: s'.queue := by
  obtain ⟨cur, queue⟩ := s
  obtain ⟨cur', queue'⟩ := s'
  cases queue with
  | nil => simp [coSched, dequeue]
  | cons x xs =>
    cases x with
    | none => simp [coSched, dequeue]
    | some c => simp [coSched, dequeue]

theorem coResched_eq_some {s s' : Sched} :
    s.coResched = some s' ↔
      s.queue ++ [some s.current] = some s'.current :: s'.queue := by
  rw [coResched, coSched_eq_some]
  rfl

end Sched

end NetTraverse
