import Is2.Core.Machine
import Is2.Core.Words
import Is2.Evr.Timers

/-!
# The idle timer of a client session

A client session is closed when nothing was heard of its client for `m_timeout_ms`.  The timer is
not reset when something is heard: the time is noted, and when the timer fires, it is armed again
for what is left, or the session is torn down.

**Model.**  A thread has one timer queue for all its sessions and for everybody else.  A session is
named by the pointer to its connection, which is what its events carry.  It has three handles to
events, `m_evr_timeout`, `m_evr_readable` and `m_evr_writeable`.  A pointer is not used twice, and
what is done through a pointer to a session that is gone is undefined (`none`).

**What is left open.**  From `state_top` on, `run_state_machine` touches the handles in two ways
only: handlers and upstream objects may call `queue_output` of this and of other sessions, and in
state `NC_STATE_DONE` the session is torn down.  So a label says what was done meanwhile (`acts`),
and how it ended (`Ending`).  While a session is torn down, `ups_cancel` runs such code once more.
Everybody else may add events of their own at any time, and cancel them.

`log` is a history that no code reads: when a readable or writeable event came for a session, the
delays its timer was armed again with, and when it was torn down by its timer.  The events are noted
where they are handed to the session, not by what it does with them.
-/

namespace Is2

namespace IdleTimer

open Evr

/-! ## Sessions -/

/-- The three handles. -/
inductive Kind where
  | timeout | readable | writeable
  deriving DecidableEq, Repr

/-- The callbacks of a session, and those of everybody else. -/
inductive Callback (κ : Type) where
  | evr (k : Kind) (c : ℕ)
  | other (x : κ)
  deriving DecidableEq

/-- `nc_conn_state_t`, as far as a client connection gets. -/
inductive NcState where
  | free | accepting | connected
  deriving DecidableEq, Repr

/-- `session`: its handles, its times, and the state of its connection. -/
structure Session where
  evr : Kind → Option ℕ
  lastActiveMs : ℕ
  timeoutMs : ℕ
  state : NcState

def Session.setEvr (s : Session) (k : Kind) (p : Option ℕ) : Session :=
  { s with evr := Function.update s.evr k p }

/-- An entry of the log. -/
inductive Obs where
  /-- The session was made, or it was called because its client can be read from or written to. -/
  | active (c now : ℕ)
  /-- The timer was armed again for `ms`. -/
  | rearmed (c ms timeoutMs : ℕ)
  /-- The session was torn down by its timer. -/
  | timedOut (c now timeoutMs : ℕ)
  deriving DecidableEq, Repr

/-- The part of `t_srvr` that the timers touch. -/
structure Thread (κ : Type) where
  timers : Timers (Callback κ)
  sessions : ℕ → Option Session
  next : ℕ
  clock : ℕ
  log : List Obs

namespace Thread

variable {κ : Type}

/-- `get_time_ms` -/
def tick (t : Thread κ) (now : ℕ) : Option (Thread κ) :=
  if t.clock ≤ now ∧ now < 2 ^ 64 then some { t with clock := now } else none

def modify (t : Thread κ) (c : ℕ) (f : Session → Session) : Thread κ :=
  { t with sessions := Function.update t.sessions c ((t.sessions c).map f) }

def note (t : Thread κ) (o : Obs) : Thread κ := { t with log := o :: t.log }

/-! ## Adding and cancelling events -/

/-- `t_srvr::add_timer` and `t_srvr::queue_event`: the pointer to the event is put into the
handle. -/
def addTimer (t : Thread κ) (now ms : ℕ) (k : Kind) (c : ℕ) : Option (Thread κ) := do
  let t ← t.tick now
  some { t.modify c (·.setEvr k (some t.timers.fresh)) with
    timers := t.timers.addEvent now ms (some (.evr k c)) }

/-- `session::add_evr_timer` -/
def addEvrTimer (t : Thread κ) (now c ms : ℕ) : Option (Thread κ) := t.addTimer now ms .timeout c

/-- What the three functions below do. -/
def cancelEvr (k : Kind) (t : Thread κ) (c : ℕ) : Option (Thread κ) := do
  let s ← t.sessions c
  (s.evr k).elim (some t) fun p => do
    let (timers, status) ← t.timers.cancelEvent (some p)
    if status ≠ 0 then some { t with timers := timers }
    else some { t.modify c (·.setEvr k none) with timers := timers }

/-- `session::cancel_evr_timer` -/
def cancelEvrTimer (t : Thread κ) (c : ℕ) : Option (Thread κ) := cancelEvr .timeout t c

/-- `session::cancel_evr_readable` -/
def cancelEvrReadable (t : Thread κ) (c : ℕ) : Option (Thread κ) := cancelEvr .readable t c

/-- `session::cancel_evr_writeable` -/
def cancelEvrWriteable (t : Thread κ) (c : ℕ) : Option (Thread κ) := cancelEvr .writeable t c

/-- `session::queue_output` -/
def queueOutput (t : Thread κ) (now c : ℕ) : Option (Thread κ) := do
  let s ← t.sessions c
  if (s.evr .writeable).isSome then some t else t.addTimer now 0 .writeable c

end Thread

/-! ## Other code -/

/-- What other code may do. -/
inductive Act (κ : Type) where
  | queueOutput (now c : ℕ)
  | add (now ms : ℕ) (x : κ)
  | cancel (p : ℕ)

/-- The session and the handle that a callback is for. -/
def Callback.slot {κ : Type} : Callback κ → Option (Kind × ℕ)
  | .evr k c => some (k, c)
  | .other _ => none

/-- The event has no callback of a session. -/
def Foreign {κ : Type} (timers : Timers (Callback κ)) (p : ℕ) : Prop :=
  ((timers.heap p).bind Event.cb).bind Callback.slot = none

instance {κ : Type} (timers : Timers (Callback κ)) (p : ℕ) : Decidable (Foreign timers p) :=
  inferInstanceAs (Decidable (_ = _))

namespace Thread

variable {κ : Type}

def act (t : Thread κ) : Act κ → Option (Thread κ)
  | .queueOutput now c => t.queueOutput now c
  | .add now ms x => do
    let t ← t.tick now
    some { t with timers := t.timers.addEvent now ms (some (.other x)) }
  | .cancel p =>
    -- others have no handles to the events of a session
    if Foreign t.timers p then do
      let (timers, _) ← t.timers.cancelEvent (some p)
      some { t with timers := timers }
    else none

def perform (t : Thread κ) (acts : List (Act κ)) : Option (Thread κ) := acts.foldlM act t

/-! ## The end of a session -/

/-- `session::teardown`; `acts` is what `ups_cancel` does. -/
def teardown (t : Thread κ) (c : ℕ) (acts : List (Act κ)) : Option (Thread κ) := do
  let t ← t.cancelEvrTimer c
  t.perform acts

/-- `session::~session` -/
def delete (t : Thread κ) (c : ℕ) : Option (Thread κ) := do
  let t ← t.cancelEvrTimer c
  let t ← t.cancelEvrReadable c
  let t ← t.cancelEvrWriteable c
  some { t with sessions := Function.update t.sessions c none }

/-- A session is torn down and deleted. -/
def destroy (t : Thread κ) (c : ℕ) (acts : List (Act κ)) : Option (Thread κ) := do
  let t ← t.teardown c acts
  t.delete c

end Thread

/-! ## `run_state_machine` -/

/-- `evr_mode_t` -/
inductive Mode where
  | read | write | error | timeout
  deriving DecidableEq, Repr

/-- How `run_state_machine` ends once the connection was read or written: it returns with the
connection in some state, or finds it done. -/
inductive Ending where
  | back (accepting : Bool)
  | done
  deriving DecidableEq, Repr

/-- What the code does not decide: the clock in `run_state_machine` and then in `add_event`, what is
done meanwhile, how it ends, and what `ups_cancel` does. -/
structure Env (κ : Type) where
  now : ℕ
  later : ℕ
  acts : List (Act κ)
  ending : Ending
  cancels : List (Act κ)

namespace Thread

variable {κ : Type}

/-- `EVR_MODE_TIMEOUT` -/
def onTimeout (t : Thread κ) (c : ℕ) (s : Session) (env : Env κ) : Option (Thread κ) := do
  let t ← t.tick env.now
  if s.timeoutMs ≤ sub64 env.now s.lastActiveMs % 2 ^ 32 then
    (t.note (.timedOut c env.now s.timeoutMs)).destroy c env.cancels
  else
    let ms := sub64 s.timeoutMs (sub64 env.now s.lastActiveMs) % 2 ^ 32
    (t.note (.rearmed c ms s.timeoutMs)).addEvrTimer env.later c ms

/-- The connection is read or written. -/
def transfer (t : Thread κ) (c : ℕ) (env : Env κ) : Option (Thread κ) := do
  let t ← t.perform env.acts
  match env.ending with
  | .back accepting =>
    some (t.modify c fun s => { s with state := if accepting then .accepting else .connected })
  | .done => t.destroy c env.cancels

/-- `EVR_MODE_READ` and `EVR_MODE_WRITE` -/
def onActive (t : Thread κ) (c : ℕ) (s : Session) (env : Env κ) : Option (Thread κ) := do
  let t ← t.tick env.now
  let t := t.modify c fun s => { s with lastActiveMs := env.now }
  if s.state = .free then some t else t.transfer c env

/-- `run_state_machine`; callbacks for free connections are ignored. -/
def runStateMachine (t : Thread κ) (c : ℕ) (mode : Mode) (env : Env κ) : Option (Thread κ) := do
  let s ← t.sessions c
  match mode with
  | .error => if s.state = .free then some t else t.destroy c env.cancels
  | .timeout => if s.state = .free then some t else t.onTimeout c s env
  | .read => t.onActive c s env
  | .write => t.onActive c s env

/-- The mode that an event of this kind stands for. -/
def modeOf : Kind → Mode
  | .timeout => .timeout
  | .readable => .read
  | .writeable => .write

/-- `session::evr_event_timeout_cb`, `evr_event_readable_cb` and `evr_event_writeable_cb`: the
handle is cleared first. -/
def evrEventCb (k : Kind) (t : Thread κ) (c : ℕ) (env : Env κ) : Option (Thread κ) :=
  (t.modify c (·.setEvr k none)).runStateMachine c (modeOf k) env

/-! ## The loop -/

/-- The callback of an event is called; others do as they like. -/
def call (t : Thread κ) (env : Env κ) : Callback κ → Option (Thread κ)
  | .evr .timeout c => evrEventCb .timeout t c env
  | .evr k c => (evrEventCb k t c env).map (·.note (.active c env.now))
  | .other _ => t.perform env.acts

/-- What a turn of the loop in `dequeue_events` comes to. -/
def settle (t : Thread κ) (p : ℕ) (env : Env κ) : Turn (Callback κ) → Option (Thread κ)
  | .skip timers => some { t with timers := timers }
  | .wait _ => some t
  | .serve timers _ cb => do
    let t ← cb.elim (some { t with timers := timers }) (call { t with timers := timers } env)
    some { t with timers := t.timers.free p }

/-- A turn of the loop in `dequeue_events`, with `p` on top of the queue. -/
def turn (t : Thread κ) (now p : ℕ) (env : Env κ) : Option (Thread κ) := do
  let t ← t.tick now
  let turn ← t.timers.turn now p
  t.settle p env turn

/-- `lsnr::evr_fd_readable_cb`: a new session, with its first timer. -/
def accept (t : Thread κ) (now later timeoutMs : ℕ) : Option (Thread κ) :=
  if timeoutMs < 2 ^ 32 then do
    let t ← t.tick now
    let s : Session := ⟨fun _ => none, now, timeoutMs, .accepting⟩
    Thread.addTimer
      { t.note (.active t.next now) with
        sessions := Function.update t.sessions t.next (some s)
        next := t.next + 1 }
      later timeoutMs .timeout t.next
  else none

end Thread

/-- What can happen next. -/
inductive Label (κ : Type) where
  | accept (now later timeoutMs : ℕ)
  | readable (c : ℕ) (env : Env κ)
  | writeable (c : ℕ) (env : Env κ)
  | error (c : ℕ) (env : Env κ)
  | turn (now p : ℕ) (env : Env κ)
  | other (acts : List (Act κ))

def step {κ : Type} (t : Thread κ) : Label κ → Option (Thread κ)
  | .accept now later timeoutMs => t.accept now later timeoutMs
  | .readable c env => (t.runStateMachine c .read env).map (·.note (.active c env.now))
  | .writeable c env => (t.runStateMachine c .write env).map (·.note (.active c env.now))
  | .error c env => t.runStateMachine c .error env
  | .turn now p env => t.turn now p env
  | .other acts => t.perform acts

/-- All runs from a thread without sessions and events, whatever the clock shows at first. -/
def machine (κ : Type) : Machine (Thread κ) (Label κ) where
  start t := ∃ clock < 2 ^ 64, t = ⟨.empty, fun _ => none, 0, clock, []⟩
  step t l t' := step t l = some t'

/-! ## The contract -/

/-- The event waits in the queue, and will call `cb`. -/
def Pending {κ : Type} (timers : Timers (Callback κ)) (p : ℕ) (cb : Callback κ) : Prop :=
  p ∈ timers.pq ∧ ∃ e, timers.heap p = some e ∧ e.state = .active ∧ e.cb = some cb

/-- What must be true of an entry, given the log before it. -/
def Obs.Ok (older : List Obs) : Obs → Prop
  | active _ _ => True
  | rearmed _ ms timeoutMs => 0 < ms ∧ ms ≤ timeoutMs
  | timedOut c now timeoutMs =>
      (∃ time, .active c time ∈ older) ∧ ∀ time, .active c time ∈ older → time + timeoutMs ≤ now

/-- Every entry is right, given those before it. -/
def LogOk : List Obs → Prop
  | [] => True
  | o :: older => o.Ok older ∧ LogOk older

/-- **The contract of the idle timer.** -/
structure Contract {κ : Type} (t : Thread κ) : Prop where
  /-- A session that is alive has exactly one timeout pending. -/
  one : ∀ c s, t.sessions c = some s → ∃! p, Pending t.timers p (.evr .timeout c)
  /-- The timer was armed again for delays in `(0, m_timeout_ms]`, and tore a session down only when
  `m_timeout_ms` had passed since whatever was heard of it. -/
  log : LogOk t.log
  /-- No event is pending for a session that is gone. -/
  gone : ∀ c, t.sessions c = none → ∀ p k, ¬ Pending t.timers p (.evr k c)
  /-- The handles of a session are pending events of its own. -/
  handles : ∀ c s k p, t.sessions c = some s → s.evr k = some p → Pending t.timers p (.evr k c)

end IdleTimer

end Is2
