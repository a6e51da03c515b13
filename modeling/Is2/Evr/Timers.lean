import Mathlib.Algebra.BigOperators.Group.List.Basic
import Mathlib.Algebra.Ring.Int.Defs
import Mathlib.Logic.Function.Basic

/-!
# The timer queue of `evr_loop`

`evr_loop` keeps its timers in a `std::priority_queue` of pointers to events, ordered by
`m_time_ms`.  An event is allocated by `add_event`, changed in place by `cancel_event` and freed by
`dequeue_events` when it surfaces.

* Pointers are numbers; an allocation is never given a pointer that was used before, so a pointer
  names one event.  A freed event is gone from `heap`, and touching it is undefined.
* The queue promises that `top()` is an element no other is earlier than, and nothing about ties:
  the caller of `turn` says which one it is.
* `κ` is the type of callbacks; an element stands for a function together with its `m_data`.
-/

namespace Is2

namespace Evr

/-- `EVR_EVENT_MAGIC`. -/
def eventMagic : ℕ := 0xDEADCAFE

/-- `EVR_DEFAULT_TIME_WAIT_MS`, as the `uint32_t` it is stored in. -/
def defaultTimeWaitMs : ℕ := 2 ^ 32 - 1

inductive EventState where
  | active
  | cancelled
deriving DecidableEq, Repr

/-- `evr_event_t`. -/
structure Event (κ : Type) where
  magic : ℕ
  timeMs : ℕ
  cb : Option κ
  state : EventState

/-- The allocated events and the queue of pointers to them. -/
structure Timers (κ : Type) where
  heap : ℕ → Option (Event κ)
  fresh : ℕ
  pq : List ℕ

namespace Timers

variable {κ : Type}

def empty : Timers κ := ⟨fun _ => none, 0, []⟩

/-- `evr_loop::add_event`, at clock reading `now`.  The new event is at `t.fresh`. -/
def addEvent (t : Timers κ) (now delay : ℕ) (cb : Option κ) : Timers κ where
  heap := Function.update t.heap t.fresh (some ⟨eventMagic, now + delay, cb, .active⟩)
  fresh := t.fresh + 1
  pq := t.fresh :: t.pq

/-- `evr_loop::cancel_event`: the event stays queued.  The status is `STATUS_ERROR` for a null
pointer. -/
def cancelEvent (t : Timers κ) : Option ℕ → Option (Timers κ × ℤ)
  | none => some (t, -1)
  | some p => do
      let e ← t.heap p
      some ({ t with
        heap := Function.update t.heap p (some { e with cb := none, state := .cancelled }) },
        0)

/-- `m_time_ms` of a queued event. -/
def timeMs (t : Timers κ) (p : ℕ) : ℕ := ((t.heap p).map Event.timeMs).getD 0

/-- `p` may be `m_event_pq.top()`. -/
def IsTop (t : Timers κ) (p : ℕ) : Prop := p ∈ t.pq ∧ ∀ p' ∈ t.pq, t.timeMs p ≤ t.timeMs p'

instance (t : Timers κ) (p : ℕ) : Decidable (t.IsTop p) :=
  inferInstanceAs (Decidable (p ∈ t.pq ∧ ∀ p' ∈ t.pq, t.timeMs p ≤ t.timeMs p'))

/-- `m_event_pq.pop()`. -/
def pop (t : Timers κ) (p : ℕ) : Timers κ := { t with pq := t.pq.erase p }

/-- `delete l_event`. -/
def free (t : Timers κ) (p : ℕ) : Timers κ := { t with heap := Function.update t.heap p none }

end Timers

/-- How one turn of the loop of `dequeue_events` goes on: with the next turn, by leaving the loop
with a time to wait, or by running the callback of an event that was taken off the queue. -/
inductive Turn (κ : Type) where
  | skip (t : Timers κ)
  | wait (ms : ℕ)
  | serve (t : Timers κ) (due : ℕ) (cb : Option κ)

/-- One turn of the loop of `evr_loop::dequeue_events` up to the callback, at clock reading `now`,
with `p` the top of the queue.  The event is freed after its callback returned. -/
def Timers.turn {κ : Type} (t : Timers κ) (now p : ℕ) : Option (Turn κ) :=
  if t.IsTop p then do
    let e ← t.heap p
    if e.magic ≠ eventMagic then some (.skip (t.pop p))
    else if e.state = .cancelled then some (.skip ((t.pop p).free p))
    else if now < e.timeMs then some (.wait ((e.timeMs - now) % 2 ^ 32))
    else some (.serve (t.pop p) e.timeMs e.cb)
  else none

end Evr

end Is2
