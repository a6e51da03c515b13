import Is2.Evr.Timers
import Is2.Handler.FileRead
import Is2.Srvr.UpsSession

/-!
# The timers of a server thread

`evr_loop::dequeue_events` runs the callbacks of the timers that are due, and these add timers to
the queue that is being drained: `subr_dequeue` is posted for every subrequest that is enqueued,
`session::evr_event_writeable_cb` for a client when there is something to send to it, and the idle
timers, the statistics and the resolver add timers with a delay.

**Model.**  A `Thread` is a `TSrvr` with its event loop and its client sessions.  A call of
`dequeue_events` is run step by step; `ctl` says in which callback it is, and each turn of a loop of
a callback is a step.  The clock, the sockets, the resolver and the files are the `Input` of a step;
the clock is read once in a step.

* The timers of a `TSrvr` are names; `evrOf` is the event that `m_evr_timeout` of the upstream
  session points to.  `follow` carries over to the event loop what a step of the `TSrvr` did: it
  cancels events, posts `subr_dequeue` for each new slot of `m_subr_list`, adds timers, and calls
  `proxy_u::s_error_cb`, which queues a response for the client.
* Of a client session, what its two callbacks read and write; of its output queue, how many bytes
  are in it.  Its input is read between two calls of `dequeue_events`.
* No descriptor is looked at while the timers are drained, so there is no step for a readable event,
  and lookups can only time out.  `evr_event_readable_cb` of both kinds of sessions is posted by
  nobody.  Callbacks of an application, added with `add_timer`, are not part of the program.
-/

namespace Is2

namespace Srvr

open Evr

/-! ## The client sessions -/

/-- `m_u` of a session: a file that is sent, or a subrequest. -/
inductive BaseU where
  | file (f : FileU)
  | subr (s : ℕ)
deriving DecidableEq, Repr

/-- `session`, with its connection: whether that is in `NC_STATE_ACCEPTING`, the bytes in `m_out_q`,
and `m_supports_keep_alives` of `m_rqst`. -/
structure ClientSession where
  accepting : Bool
  outQ : ℕ
  u : Option BaseU
  supportsKeepAlives : Bool
  evrTimeout : Option ℕ
  evrWriteable : Option ℕ
  lastActiveMs : ℕ
  timeoutMs : ℕ
deriving DecidableEq, Repr

/-- The callbacks of the timers: `ups_session::subr_dequeue`, `ups_session::evr_event_timeout_cb`
for the timer `e`, `evr_event_writeable_cb` and `evr_event_timeout_cb` of the session `c`,
`t_srvr::s_stat_update`, and `nresolver::evr_fd_timeout_cb`. -/
inductive Callback where
  | subrDequeue
  | upsTimeout (e : ℕ)
  | writeable (c : ℕ)
  | timeout (c : ℕ)
  | statUpdate
  | dnsTimeout
deriving DecidableEq, Repr

/-- `t_srvr` with its event loop and its sessions.  `sessionOf` is `m_session` of the subrequests,
`dnsTimer` whether `m_timer_obj` of the resolver's context is set. -/
structure Thread (σ : Type) where
  timers : Timers Callback
  srvr : TSrvr σ
  sessions : ℕ → Option ClientSession
  sessionOf : ℕ → ℕ
  evrOf : ℕ → Option ℕ
  dnsTimer : Bool

/-- What happens to a job of the resolver: its query times out, and its callback is called; or it is
taken from the queue and cannot be submitted. -/
inductive Fate where
  | timedOut (j : ℕ)
  | lost (j : ℕ)
deriving DecidableEq, Repr

/-- What a step is told: the clock, `m_stopped`, the resolver and the length of the request that
`create_request` made, `m_timeout_ms` of the subrequest, how many milliseconds an upstream session
was not active and may be, what happens to a job next and whether a query is active after that, the
sockets, what `::read` got of a file, `get_shutdown`, and the length of an error response. -/
structure Input where
  now : ℕ
  stopped : Bool
  lookup : TSrvr.Lookup
  request : Option ℕ
  subrTimeoutMs : ℕ
  upsElapsedMs : ℕ
  upsTimeoutMs : ℕ
  fate : Option Fate
  dnsActive : Bool
  setup : UpsConn.SetupIn
  connect : UpsConn.ConnectIn
  send : UpsConn.Send
  accepted : Bool
  write : SockWrite
  fileRead : Option ℕ
  shutdown : Bool
  errorLen : ℕ

namespace Thread

variable {σ : Type}

/-- A new server thread. -/
def new (cf : TConf) : Thread σ where
  timers := .empty
  srvr := .new cf
  sessions := fun _ => none
  sessionOf := fun _ => 0
  evrOf := fun _ => none
  dnsTimer := false

/-! ## Single changes -/

/-- `t_srvr::add_timer`; `t_srvr::queue_event` when there is no delay. -/
def addTimer (th : Thread σ) (now delay : ℕ) (cb : Callback) : Thread σ :=
  { th with timers := th.timers.addEvent now delay (some cb) }

/-- `t_srvr::cancel_event`. -/
def cancelEvent (th : Thread σ) (p : Option ℕ) : Option (Thread σ) :=
  (th.timers.cancelEvent p).map fun r => { th with timers := r.1 }

def setSession (th : Thread σ) (c : ℕ) (C : Option ClientSession) : Thread σ :=
  { th with sessions := Function.update th.sessions c C }

/-- `session::queue_output`. -/
def queueOutput (th : Thread σ) (now c : ℕ) : Option (Thread σ) := do
  let C ← th.sessions c
  match C.evrWriteable with
  | some _ => some th
  | none =>
      some ((th.setSession c (some { C with evrWriteable := some th.timers.fresh })).addTimer now 0
        (.writeable c))

/-- `proxy_u::s_error_cb`, with a response of `len` bytes. -/
def errorCb (now len : ℕ) (th : Thread σ) (s : ℕ) : Option (Thread σ) := do
  let C ← th.sessions (th.sessionOf s)
  (th.setSession (th.sessionOf s) (some { C with outQ := C.outQ + len })).queueOutput now
    (th.sessionOf s)

/-- The call of a callback of a subrequest; `s_completion_cb` changes nothing here. -/
def callback (now len : ℕ) (th : Thread σ) : ℕ × Call σ → Option (Thread σ)
  | (s, .error _) => th.errorCb now len s
  | (_, .completion _) => some th

/-- `ups_session::cancel_evr_timer`, for the timer `e`. -/
def cancelEvrTimer (th : Thread σ) (e : ℕ) : Option (Thread σ) :=
  (th.cancelEvent (th.evrOf e)).map fun th =>
    { th with evrOf := Function.update th.evrOf e none }

/-- The timer `e` of an upstream session is added. -/
def addEvrTimer (now delay : ℕ) (th : Thread σ) (e : ℕ) : Thread σ :=
  { th.addTimer now delay (.upsTimeout e) with
    evrOf := Function.update th.evrOf e (some th.timers.fresh) }

/-- The names in `new` that are not in `old`. -/
def fresh {α : Type} (new old : List (ℕ × α)) : List ℕ :=
  (new.map Prod.fst).filter fun x => x ∉ old.map Prod.fst

/-- The `TSrvr` took a step to `t`, in which timers were added with `delay`. -/
def follow (th : Thread σ) (now delay len : ℕ) (t : TSrvr σ) : Option (Thread σ) := do
  let old := th.srvr
  let th ← (t.calls.drop old.calls.length).foldlM (callback now len) { th with srvr := t }
  let th ← (fresh old.timers t.timers).foldlM cancelEvrTimer th
  let th := (fresh t.timers old.timers).foldl (addEvrTimer now delay) th
  some ((fresh t.subrList old.subrList).foldl (fun th _ => th.addTimer now 0 .subrDequeue) th)

section Steps

variable (P : RespParser σ) (cf : TConf)

/-- `ups_cancel`, unless `m_u` is done, and then its destructor, for the subrequest `s`. -/
def deleteU (th : Thread σ) (now len s : ℕ) : Option (Thread σ) := do
  let t ← th.srvr.step P cf (.sessionTeardown s)
  let th ← th.follow now 0 len t
  let t ← th.srvr.step P cf .delete
  th.follow now 0 len t

/-- The session `c` makes a proxied request for `conf`, and enqueues its subrequest. -/
def proxy (th : Thread σ) (now len c : ℕ) (conf : SubrConf) : Option (Thread σ) := do
  let C ← th.sessions c
  let s := th.srvr.next
  let t ← th.srvr.step P cf (.enqueue conf)
  { th.setSession c (some { C with u := some (.subr s) }) with
    sessionOf := Function.update th.sessionOf s c }.follow now 0 len t

/-- `m_u` of a session is cancelled and deleted. -/
def dropU (th : Thread σ) (now len : ℕ) : Option BaseU → Option (Thread σ)
  | some (.subr s) => th.deleteU P cf now len s
  | _ => some th

/-- `session::teardown` and `~session`.  The output may be queued once more in between. -/
def destroy (th : Thread σ) (now len c : ℕ) : Option (Thread σ) := do
  let C ← th.sessions c
  let th ← th.cancelEvent C.evrTimeout
  let th ← th.dropU P cf now len C.u
  let C ← th.sessions c
  let th ← th.cancelEvent C.evrWriteable
  some (th.setSession c none)

/-! ## `session::evr_event_writeable_cb` -/

/-- All output is sent, and the answer is complete.  Whether there is another pass is `false`. -/
def respDone (th : Thread σ) (c : ℕ) (i : Input) (C : ClientSession) (shutdown : Bool) :
    Option (Thread σ × Bool) :=
  if !shutdown ∧ C.supportsKeepAlives then some (th, false)
  else (th.destroy P cf i.now i.errorLen c).map fun th => (th, false)

/-- `UPS_READ_AHEAD_SIZE`. -/
def upsReadAheadSize : ℕ := 64 * 1024

/-- `file_u::ups_read_ahead`, and whether there is another pass.  No output is in the queue. -/
def readAhead (th : Thread σ) (c : ℕ) (i : Input) (C : ClientSession) (f : FileU) :
    Option (Thread σ × Bool) :=
  if f.fd < 0 then some (th, false)
  else
    let f := { f with state := .sending }
    match i.fileRead with
    | none => some (th.setSession c (some { C with u := some (.file f) }), false)
    | some n =>
        if f.lenRead upsReadAheadSize < n then none
        else
          let th := th.setSession c
            (some { C with u := some (.file (f.account upsReadAheadSize n)), outQ := n })
          if n = 0 then some (th, false) else (th.queueOutput i.now c).map fun th => (th, true)

/-- `run_state_machine` behind a write, when no output is left. -/
def checkDone (th : Thread σ) (c : ℕ) (i : Input) (C : ClientSession) : Option (Thread σ × Bool) :=
  match C.u with
  | none => th.respDone P cf c i C false
  | some (.file f) =>
      if f.state = .done then
        (th.setSession c (some { C with u := none })).respDone P cf c i C i.shutdown
      else th.readAhead c i C f
  | some (.subr s) => do
      let S ← th.srvr.subrs s
      if S.upsDone then do
        let th ← th.deleteU P cf i.now i.errorLen s
        let C ← th.sessions c
        let C := { C with u := none }
        (th.setSession c (some C)).respDone P cf c i C i.shutdown
      else some (th, false)

/-- One pass through `state_top` of `session.cc` in the mode `WRITE`, and whether there is another.
A socket takes at least one byte, or answers with a status. -/
def writePass (th : Thread σ) (c : ℕ) (i : Input) : Option (Thread σ × Bool) := do
  let C ← th.sessions c
  if i.stopped then some (th, false)
  else if C.accepting then
    if i.accepted then some (th.setSession c (some { C with accepting := false }), true)
    else some (th, false)
  else if C.outQ = 0 then th.checkDone P cf c i C
  else
    match i.write with
    | .accept 0 => none
    | .accept k =>
        let C := { C with outQ := C.outQ - k }
        let th := th.setSession c (some C)
        if C.outQ = 0 then th.checkDone P cf c i C else some (th, true)
    | .status .again => some (th, false)
    | .status _ => (th.destroy P cf i.now i.errorLen c).map fun th => (th, false)

/-! ## `session::evr_event_timeout_cb` -/

/-- The callback, for the session `c`. -/
def evrEventTimeoutCb (th : Thread σ) (c : ℕ) (i : Input) : Option (Thread σ) := do
  let C ← th.sessions c
  let C := { C with evrTimeout := none }
  let th := th.setSession c (some C)
  let elapsed := sub64 i.now C.lastActiveMs % 2 ^ 32
  if C.timeoutMs ≤ elapsed then th.destroy P cf i.now i.errorLen c
  else
    some ((th.setSession c (some { C with evrTimeout := some th.timers.fresh })).addTimer i.now
      (C.timeoutMs - elapsed) (.timeout c))

/-! ## `subr_dequeue` and `evr_event_timeout_cb` of an upstream session -/

/-- A job of the resolver comes to its end. -/
def jobEnds (th : Thread σ) (i : Input) (fate : Fate) : Option (Thread σ) := do
  let (j, l) := match fate with
    | .timedOut j => (j, TSrvr.Label.resolved j false)
    | .lost j => (j, .jobLost j)
  if j ∈ th.srvr.jobs.map Prod.fst then do
    let t ← th.srvr.step P cf l
    th.follow i.now 0 i.errorLen t
  else none

/-- The front of the list was handed to `lookup_async`, which returned `STATUS_OK`: the loop goes
on, and the subrequest waits for its address. -/
def asked (t t' : TSrvr σ) : Bool :=
  match t.subrList, t'.ctl with
  | (_, some s) :: _, .dequeuing => (t'.subrs s).any (·.state = .dnsLookup)
  | _, _ => false

/-- The resolver's timer, at the end of `lookup_async`. -/
def dnsTimeout (th : Thread σ) (i : Input) : Thread σ :=
  if i.dnsActive ∧ !th.dnsTimer then { th.addTimer i.now 1000 .dnsTimeout with dnsTimer := true }
  else th

/-- One turn of the loop of `subr_dequeue`. -/
def dequeueTurn (th : Thread σ) (i : Input) : Option (Thread σ) := do
  let old := th.srvr
  let t ← old.step P cf (.turn ⟨i.stopped, i.lookup, i.request⟩)
  let th ← th.follow i.now (if i.subrTimeoutMs = 0 then 10000 else i.subrTimeoutMs) i.errorLen t
  some (if asked old t then th.dnsTimeout i else th)

/-- What a pass through `state_top` of `ups_session.cc` is told.  A socket takes at least one byte,
or answers with a status. -/
def passIn (th : Thread σ) (f : Frame) (i : Input) : Option TSrvr.PassIn :=
  match f.mode with
  | .error => some .error
  | .timeout => some (.timeout (i.upsTimeoutMs ≤ i.upsElapsedMs))
  | .write => do
      let n ← th.srvr.conn f.nconn
      match n.state with
      | .free => some (.setup i.setup)
      | .connecting => some (.connect i.connect)
      | _ => if i.send = .sent 0 then none else some (.write i.send)
  | _ => none

/-- One pass through `state_top` of `ups_session.cc`. -/
def upsPass (th : Thread σ) (f : Frame) (i : Input) : Option (Thread σ) := do
  let a ← th.passIn f i
  let t ← th.srvr.step P cf (.pass a)
  th.follow i.now (i.upsTimeoutMs - i.upsElapsedMs) i.errorLen t

end Steps

end Thread

/-! ## `dequeue_events`, step by step -/

/-- Where the call is: at the head of its loop; in the callback of the event at `p`, which was due
at `due`: `subr_dequeue` or the timeout of an upstream session, the resolver's, or the writing
callback of the session `c`; or back. -/
inductive Draining where
  | loop
  | upstream (p due : ℕ)
  | resolving (p due : ℕ)
  | writing (p due c : ℕ)
  | returned (wait : ℕ)
deriving DecidableEq, Repr

section Drain

variable {σ : Type} (P : RespParser σ) (cf : TConf) (statUpdateMs : ℕ)

/-- The callback of the event at `p` is back, and the event is deleted. -/
def served (th : Thread σ) (p : ℕ) : Thread σ × Draining :=
  ({ th with timers := th.timers.free p }, .loop)

/-- The callback of the event at `p` begins. -/
def serve (i : Input) (th : Thread σ) (p due : ℕ) :
    Option Callback → Option (Thread σ × Draining)
  | none => some (served th p)
  | some .subrDequeue =>
      (th.srvr.step P cf .dequeue).map fun t => ({ th with srvr := t }, .upstream p due)
  | some (.upsTimeout e) =>
      (th.srvr.step P cf (.timeout e)).map fun t =>
        ({ th with srvr := t, evrOf := Function.update th.evrOf e none }, .upstream p due)
  | some (.writeable c) =>
      (th.sessions c).map fun C =>
        (th.setSession c (some { C with evrWriteable := none, lastActiveMs := i.now }),
          .writing p due c)
  | some (.timeout c) => (th.evrEventTimeoutCb P cf c i).map (served · p)
  | some .statUpdate =>
      some (served (if statUpdateMs = 0 then th else th.addTimer i.now statUpdateMs .statUpdate) p)
  | some .dnsTimeout => some ({ th with dnsTimer := false }, .resolving p due)

/-- The next step inside `subr_dequeue` or the timeout of an upstream session. -/
def upstream (i : Input) (th : Thread σ) (p due : ℕ) : Option (Thread σ × Draining) :=
  match th.srvr.ctl with
  | .between => some (served th p)
  | .dequeuing =>
      match i.fate with
      | some fate => (th.jobEnds P cf i fate).map (·, .upstream p due)
      | none => (th.dequeueTurn P cf i).map (·, .upstream p due)
  | .running f => (th.upsPass P cf f i).map (·, .upstream p due)
  | .deleting _ => none

/-- One step of `evr_loop::dequeue_events`; `top` is the top of the queue. -/
def drainStep (top : ℕ) (i : Input) (th : Thread σ) : Draining → Option (Thread σ × Draining)
  | .returned w => some (th, .returned w)
  | .upstream p due => upstream P cf i th p due
  | .resolving p due =>
      match i.fate with
      | some fate => (th.jobEnds P cf i fate).map (·, .resolving p due)
      | none => some (served (th.dnsTimeout i) p)
  | .writing p due c =>
      (th.writePass P cf c i).map fun r => if r.2 then (r.1, .writing p due c) else served r.1 p
  | .loop =>
      if th.timers.pq = [] then some (th, .returned defaultTimeWaitMs)
      else do
        match ← th.timers.turn i.now top with
        | .skip t => some ({ th with timers := t }, .loop)
        | .wait ms => some (th, .returned ms)
        | .serve t due cb => serve P cf statUpdateMs i { th with timers := t } top due cb

/-- The first `n` steps of a call.  `top` gives the top of a queue. -/
def drain (top : Timers Callback → ℕ) (inp : ℕ → Input) (th : Thread σ) :
    ℕ → Option (Thread σ × Draining)
  | 0 => some (th, .loop)
  | n + 1 => do
      let (th, ctl) ← drain top inp th n
      drainStep P cf statUpdateMs (top th.timers) (inp n) th ctl

/-! ## The thread as a machine -/

/-- What happens to a thread: a session is accepted, changed by its reading side or destroyed; it
proxies a request, or queues output; the proxy side takes a step; a timer is added; a call of
`dequeue_events` runs to its end, while the clock does not run backwards. -/
inductive Happens where
  | accept (c : ℕ) (C : ClientSession)
  | change (c : ℕ) (C : ClientSession)
  | destroy (c : ℕ) (i : Input)
  | proxy (c : ℕ) (conf : SubrConf) (i : Input)
  | queueOutput (c : ℕ) (i : Input)
  | srvr (l : TSrvr.Label) (i : Input)
  | addTimer (now delay : ℕ) (cb : Callback)
  | drained

/-- A server thread with every order of events, and with every input. -/
def threads : Machine (Thread σ) Happens where
  start th := th = .new cf
  step th l th' :=
    match l with
    | .accept c C => th.sessions c = none ∧ th' = th.setSession c (some C)
    | .change c C => th.sessions c ≠ none ∧ th' = th.setSession c (some C)
    | .destroy c i => th.destroy P cf i.now i.errorLen c = some th'
    | .proxy c conf i => th.proxy P cf i.now i.errorLen c conf = some th'
    | .queueOutput c i => th.queueOutput i.now c = some th'
    | .srvr l i => ∃ t, th.srvr.step P cf l = some t ∧
        th.follow i.now i.subrTimeoutMs i.errorLen t = some th'
    | .addTimer now delay cb => th' = th.addTimer now delay cb
    | .drained => ∃ top inp n w, (Monotone fun n => (inp n).now) ∧
        drain P cf statUpdateMs top inp th n = some (th', .returned w)

end Drain

end Srvr

end Is2
