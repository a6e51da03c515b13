import Is2.Nconn.Upstream

/-!
# Upstream sessions of a server thread

A client session hands a subrequest to its server thread (`subr_enqueue`).  The thread takes it from
`m_subr_list`, finds or opens a connection in the proxy pool, looking the host up if it must, and
attaches a `ups_session` to the connection (`subr_start`).  From then on the connection's events
drive the exchange (`run_state_machine`), until a callback of the subrequest has been called and the
connection is idle or released.  The client may go away at any time (`subr::cancel`, `delete`).

**Model.**  `TSrvr` is what a server thread knows of all this.  Subrequests, sessions, queue slots,
timer events and lookup jobs are named by numbers from one counter.  A thread handles one event at a
time: `ctl` says where it is, and each turn of a loop, one pass through `state_top` for example, is
a step.  What the socket, the resolver, the clock and the parser answer are inputs of the steps.

* `calls` is the list of the callbacks that were called, and `eofs` the list of the responses that
  were being read when their upstream closed the connection; the program keeps neither.
* The response parser is a parameter, `RespParser`.
* A step that would use an object that does not exist is undefined: it is `none`.
* `set_opt` knows every option `subr_start` sets, and `add_timer` always succeeds, so neither has a
  failing branch here.  The queue a response is read to is not looked at: what `nc_read` returns is
  an input.
-/

namespace Is2

/-! ## Subrequests and sessions -/

/-- `ups_get_type` of an upstream object. -/
inductive UType where
  | proxy
  | subr
deriving DecidableEq, Repr

/-- What a subrequest asks for.  `u` is `m_u`; of the callbacks only whether they are set. -/
structure SubrConf where
  scheme : Scheme
  host : String
  port : ℕ
  serverLabel : String
  hostname : String
  keepalive : Bool
  detachResp : Bool
  completionCb : Bool
  errorCb : Bool
  tlsVerify : Bool
  tlsSelfOk : Bool
  tlsNoHostCheck : Bool
  u : Option UType
deriving DecidableEq, Repr

namespace SubrConf

/-- `subr::reset_label`, on an empty label. -/
def resetLabel (conf : SubrConf) : String :=
  (match conf.scheme with
    | .none => "none://"
    | .tcp => "http://"
    | .tls => "https://") ++ conf.host ++ ":" ++ toString conf.port

/-- `subr::get_label`. -/
def getLabel (conf : SubrConf) : String :=
  if conf.serverLabel = "" then conf.resetLabel else conf.serverLabel

/-- The host name that `subr_start` sets as `OPT_TLS_HOSTNAME`. -/
def verifyHost (conf : SubrConf) : String :=
  if conf.hostname = "" then conf.host else conf.hostname

/-- The options that `subr_start` sets on a new TLS connection. -/
def tlsOpts (conf : SubrConf) : TlsOpts :=
  ⟨conf.tlsVerify, conf.tlsSelfOk, conf.tlsNoHostCheck, conf.verifyHost⟩

end SubrConf

/-- `SUBR_STATE_*`. -/
inductive SubrState where
  | none
  | queued
  | active
  | dnsLookup
deriving DecidableEq, Repr

/-- `subr`; `upsDone` is `ups_done` of its upstream object. -/
structure Subr where
  conf : SubrConf
  state : SubrState
  iQ : Option ℕ
  lookupJob : Option ℕ
  upsSession : Option ℕ
  upsDone : Bool
deriving DecidableEq, Repr

/-- `ups_session`; `resp` is the state of the parser of `m_resp`, `outQ` how many bytes of the
request are left to write. -/
structure UpsSession (σ : Type) where
  subr : ℕ
  nconn : Option ℕ
  evrTimeout : Option ℕ
  resp : Option σ
  outQ : Option ℕ
  detachResp : Bool
  again : Bool
deriving DecidableEq, Repr

/-- The `http_status_t` values that `teardown` is called with. -/
inductive HttpStatus where
  | ok
  | badGateway
  | gatewayTimeout
deriving DecidableEq, Repr

/-- A call of a callback of a subrequest: `m_completion_cb` with the response, or `m_error_cb`. -/
inductive Call (σ : Type) where
  | completion (resp : σ)
  | error (status : HttpStatus)
deriving DecidableEq, Repr

/-- The response parser: `http_parser_execute` with the callbacks of `hmsg`, what it leaves in
`m_complete` and `m_supports_keep_alives`, and what it knows of the message it is in. -/
structure RespParser (σ : Type) where
  init : σ
  execute : σ → List UInt8 → σ × ℕ
  complete : σ → Bool
  supportsKeepAlives : σ → Bool
  headersComplete : σ → Bool
  messageNeedsEof : σ → Bool

/-! ## The server thread -/

/-- A call of `run_state_machine`: its connection and mode, `l_ups`, `l_idle`, and the subrequest
whose `subr_start` made the call. -/
structure Frame where
  nconn : ℕ
  mode : EvrMode
  ups : Option ℕ
  idle : Bool
  caller : Option ℕ
deriving DecidableEq, Repr

/-- Where a server thread is: between two events, in the loop of `subr_dequeue`, in
`run_state_machine`, or about to delete the upstream object of a subrequest. -/
inductive Ctl where
  | between
  | dequeuing
  | running (f : Frame)
  | deleting (s : ℕ)
deriving DecidableEq, Repr

/-- What is used of `t_conf`. -/
structure TConf where
  numParallel : ℕ
  nresolver : Bool
  dnsUseSync : Bool
  numReqsPerConn : ℤ
deriving DecidableEq, Repr

/-- `nconn::can_reuse`; `m_num_reqs` stays zero. -/
def TConf.canReuse (cf : TConf) : Bool := cf.numReqsPerConn = -1 ∨ 0 < cf.numReqsPerConn

/-- `t_srvr`, with the objects that its proxy side uses. -/
structure TSrvr (σ : Type) where
  nconnProxyPool : NconnPool UpsConn
  upsSessions : ℕ → Option (UpsSession σ)
  subrs : ℕ → Option Subr
  subrList : List (ℕ × Option ℕ)
  subrListSize : ℕ
  timers : List (ℕ × ℕ)
  jobs : List (ℕ × ℕ)
  next : ℕ
  calls : List (ℕ × Call σ)
  eofs : List (ℕ × σ)
  ctl : Ctl

namespace TSrvr

variable {σ : Type}

/-- A new server thread. -/
def new (cf : TConf) : TSrvr σ where
  nconnProxyPool := NconnPool.new cf.numParallel 4096
  upsSessions := fun _ => none
  subrs := fun _ => none
  subrList := []
  subrListSize := 0
  timers := []
  jobs := []
  next := 0
  calls := []
  eofs := []
  ctl := .between

/-! ## Single changes -/

/-- The connection `c`, without its label and LRU id. -/
def conn (t : TSrvr σ) (c : ℕ) : Option UpsConn := (t.nconnProxyPool.nconns c).map Nconn.rest

def modifyConn (t : TSrvr σ) (c : ℕ) (f : UpsConn → UpsConn) : TSrvr σ :=
  { t with nconnProxyPool := t.nconnProxyPool.update c fun n => { n with rest := f n.rest } }

def modifyUps (t : TSrvr σ) (u : ℕ) (f : UpsSession σ → UpsSession σ) : TSrvr σ :=
  { t with upsSessions := Function.update t.upsSessions u ((t.upsSessions u).map f) }

def modifySubr (t : TSrvr σ) (s : ℕ) (f : Subr → Subr) : TSrvr σ :=
  { t with subrs := Function.update t.subrs s ((t.subrs s).map f) }

/-- A callback of `s` is called if it is set. -/
def call (t : TSrvr σ) (s : ℕ) (isSet : Bool) (k : Call σ) : TSrvr σ :=
  if isSet then { t with calls := t.calls ++ [(s, k)] } else t

/-- `nconn_pool::release` of the proxy pool. -/
def release (t : TSrvr σ) (c : ℕ) : Option (TSrvr σ) :=
  (t.nconnProxyPool.release UpsConn.cls c).map fun p => { t with nconnProxyPool := p }

/-- `add_timer` for the connection `c` and its session `u`. -/
def addEvrTimer (t : TSrvr σ) (u c : ℕ) : TSrvr σ :=
  { t with timers := t.timers ++ [(t.next, c)], next := t.next + 1 }.modifyUps u
    fun U => { U with evrTimeout := some t.next }

/-- `ups_session::cancel_evr_timer`, for a session that exists. -/
def cancelEvrTimer (t : TSrvr σ) (u : ℕ) (U : UpsSession σ) : TSrvr σ :=
  match U.evrTimeout with
  | none => t
  | some e =>
      { t with timers := t.timers.filter (·.1 ≠ e) }.modifyUps u
        fun U => { U with evrTimeout := none }

/-- The return from `run_state_machine`, with whether the status is `STATUS_OK`.  If `subr_start`
made the call, `subr_dequeue` goes on. -/
def finish (t : TSrvr σ) (f : Frame) (ok : Bool) : TSrvr σ :=
  match f.caller with
  | none => { t with ctl := .between }
  | some s =>
      { (if ok then t.modifySubr s fun S => { S with state := .active } else t) with
        ctl := .dequeuing }

/-! ## `teardown` -/

/-- `ups_session::teardown`. -/
def teardown (t : TSrvr σ) (ups : Option ℕ) (c : ℕ) (status : HttpStatus) : Option (TSrvr σ) :=
  match ups with
  | none => t.release c
  | some u => do
      let U ← t.upsSessions u
      let S ← t.subrs U.subr
      let t := t.modifySubr U.subr fun S =>
        { S with state := .none, upsDone := S.upsDone || S.conf.u == some .proxy }
      let t := if status = .ok then t
        else
          (t.call U.subr S.conf.errorCb (.error status)).modifyUps u fun U =>
            if S.conf.detachResp then { U with outQ := none } else U
      let t ← (t.cancelEvrTimer u U).release c
      some (t.modifyUps u fun U => { U with nconn := none })

/-! ## `subr_enqueue`, `subr_dequeue` and `subr_start` -/

/-- `ups_session::subr_enqueue`. -/
def subrEnqueue (t : TSrvr σ) (s : ℕ) : TSrvr σ :=
  { t with
    subrList := t.subrList ++ [(t.next, some s)]
    subrListSize := t.subrListSize + 1
    next := t.next + 1 }.modifySubr s fun S => { S with state := .queued, iQ := some t.next }

/-- A client session makes a subrequest and enqueues it. -/
def enqueue (t : TSrvr σ) (conf : SubrConf) : TSrvr σ :=
  { t with
    subrs := Function.update t.subrs t.next (some ⟨conf, .none, none, none, none, false⟩)
    next := t.next + 1 }.subrEnqueue t.next

/-- What the resolver answers: the address is known (`lookup_tryfast`); `lookup_sync` finds it or
fails; `lookup_async` takes the job, or takes it and sees it fail at once, or returns an error, with
its own job perhaps left in the queue of jobs. -/
inductive Lookup where
  | fast
  | syncOk
  | syncFailed
  | asyncQueued
  | asyncFailed
  | asyncError (jobLeft : Bool)
deriving DecidableEq, Repr

/-- The inputs of one turn of `subr_dequeue`: `get_stopped`, the resolver, and `create_request` with
the length of the request it made, if it made one.  A request has at least its first line. -/
structure TurnIn where
  stopped : Bool
  lookup : Lookup
  request : Option ℕ
deriving DecidableEq, Repr

/-- `run_state_machine` up to `state_top`, but for the mode `ERROR` and `TIMEOUT`. -/
def enter (t : TSrvr σ) (c : ℕ) (mode : EvrMode) (caller : Option ℕ) : Option (TSrvr σ) := do
  let n ← t.conn c
  let f : Frame := ⟨c, mode, n.data, false, caller⟩
  some <|
    if n.cancelled then t.finish f false
    else if mode = .read ∧
        (n.state = .free ∨ (n.data.bind t.upsSessions).any UpsSession.again) then t.finish f true
    else { t with ctl := .running f }

/-- The end of `subr_start`, on the connection `c`: a session is attached to it, the request is
made, the idle timer is started, and writing begins. -/
def startOn (P : RespParser σ) (t : TSrvr σ) (s : ℕ) (S : Subr) (c : ℕ) (request : Option ℕ) :
    Option (TSrvr σ) :=
  let u := t.next
  let t := { t with
      upsSessions := Function.update t.upsSessions u (some
        { subr := s, nconn := some c, evrTimeout := none, resp := some P.init, outQ := request
          detachResp := S.conf.detachResp, again := false })
      next := t.next + 1 }
  let t := (t.modifySubr s fun S => { S with upsSession := some u }).modifyConn c
    fun n => { n with data := some u }
  match request with
  | none => t.enter c .error (some s)
  | some 0 => none
  | some _ => (t.addEvrTimer u c).enter c .write (some s)

/-- `subr_start` returns `STATUS_AGAIN`, and `subr_dequeue` enqueues the subrequest again and
stops. -/
def requeue (t : TSrvr σ) (s : ℕ) : TSrvr σ := { t.subrEnqueue s with ctl := .between }

/-- `subr_start`, from `get_new_active` on. -/
def startNew (P : RespParser σ) (t : TSrvr σ) (s : ℕ) (S : Subr) (request : Option ℕ) :
    Option (TSrvr σ) :=
  (t.nconnProxyPool.getNewActive UpsConn.cls S.conf.getLabel S.conf.scheme).bind fun
    | (_, none) => some (t.requeue s)
    | (p, some c) =>
        ({ t with nconnProxyPool := p }.modifyConn c (·.setTlsOpts S.conf.tlsOpts)).startOn P s S c
          request

/-- `lookup_async` and what `subr_start` and `subr_dequeue` make of it.  No job is made for an empty
host. -/
def lookupAsync (t : TSrvr σ) (s : ℕ) (S : Subr) : Lookup → Option (TSrvr σ)
  | .asyncQueued =>
      if S.conf.host = "" then some (t.modifySubr s fun S => { S with state := .dnsLookup })
      else
        some ({ t with jobs := t.jobs ++ [(t.next, s)], next := t.next + 1 }.modifySubr s
          fun S => { S with state := .dnsLookup, lookupJob := some t.next })
  | .asyncFailed =>
      if S.conf.host = "" then none
      else
        some (({ t with next := t.next + 1 }.call s S.conf.errorCb
          (.error .badGateway)).modifySubr s
            fun S => { S with state := .dnsLookup, lookupJob := some t.next })
  | .asyncError jobLeft =>
      if jobLeft ∧ S.conf.host ≠ "" then
        some { t with jobs := t.jobs ++ [(t.next, s)], next := t.next + 1 }
      else some t
  | _ => none

/-- `subr_start` when no connection is idle. -/
def startFresh (P : RespParser σ) (cf : TConf) (t : TSrvr σ) (s : ℕ) (S : Subr) (i : TurnIn) :
    Option (TSrvr σ) :=
  if t.nconnProxyPool.getActiveAvailable = 0 then some (t.requeue s)
  else if cf.nresolver = false then some t
  else if i.lookup = .fast then t.startNew P s S i.request
  else if cf.dnsUseSync then
    match i.lookup with
    | .syncOk => t.startNew P s S i.request
    | .syncFailed => some (t.call s S.conf.errorCb (.error .badGateway))
    | _ => none
  else t.lookupAsync s S i.lookup

/-- `ups_session::subr_start`, with the part of `subr_dequeue` that looks at what it returned. -/
def subrStart (P : RespParser σ) (cf : TConf) (t : TSrvr σ) (s : ℕ) (S : Subr) (i : TurnIn) :
    Option (TSrvr σ) :=
  (t.nconnProxyPool.getIdle S.conf.getLabel).bind fun
    | (p, some c) => { t with nconnProxyPool := p }.startOn P s S c i.request
    | (_, none) => t.startFresh P cf s S i

/-- One turn of the loop of `ups_session::subr_dequeue`. -/
def turn (P : RespParser σ) (cf : TConf) (t : TSrvr σ) (i : TurnIn) : Option (TSrvr σ) :=
  if t.subrListSize = 0 ∨ i.stopped then some { t with ctl := .between }
  else
    match t.subrList with
    | [] => none
    | (_, none) :: rest => some { t with subrList := rest, subrListSize := t.subrListSize - 1 }
    | (_, some s) :: rest => do
        let S ← t.subrs s
        ({ t with subrList := rest, subrListSize := t.subrListSize - 1 }.modifySubr s fun S =>
          { S with state := .none, iQ := none }).subrStart P cf s S i

/-! ## `run_state_machine` -/

/-- What `nc_read` returns: some bytes, or a status.  `upsReadOk` is whether `ups_read` can queue
the client's output. -/
inductive ReadIn where
  | data (bytes : List UInt8) (upsReadOk : Bool)
  | again
  | eof
  | error
  | readUnavailable
deriving DecidableEq, Repr

/-- The inputs of one pass: of the call that the state of the connection and the mode lead to. -/
inductive PassIn where
  | setup (i : UpsConn.SetupIn)
  | connect (i : UpsConn.ConnectIn)
  | read (i : ReadIn)
  | write (i : UpsConn.Send)
  | timeout (expired : Bool)
  | error
deriving DecidableEq, Repr

/-- `teardown` and the return of `STATUS_DONE`. -/
def teardownDone (t : TSrvr σ) (f : Frame) (status : HttpStatus) : Option (TSrvr σ) :=
  (t.teardown f.ups f.nconn status).map fun t => t.finish f false

/-- `NC_STATUS_AGAIN`. -/
def passAgain (t : TSrvr σ) (f : Frame) : Option (TSrvr σ) :=
  if f.idle then
    ((t.modifyConn f.nconn fun n => { n with data := none }).nconnProxyPool.addIdle UpsConn.cls
      f.nconn).map fun (p, ok) => { t with nconnProxyPool := p }.finish f ok
  else some (t.finish f true)

/-- The `NC_STATUS_EOF` branch for a session, up to `teardown`. -/
def eof (t : TSrvr σ) (u : ℕ) (U : UpsSession σ) (S : Subr) : TSrvr σ :=
  match U.resp with
  | none => t
  | some p =>
      ({ t with eofs := t.eofs ++ [(U.subr, p)] }.call U.subr S.conf.completionCb
        (.completion p)).modifyUps u
          fun U => if S.conf.detachResp then { U with resp := none } else U

/-- The response is complete: the callback is called, and the connection becomes idle or is torn
down. -/
def complete (P : RespParser σ) (cf : TConf) (t : TSrvr σ) (f : Frame) (u : ℕ) (U : UpsSession σ)
    (S : Subr) (p : σ) : Option (TSrvr σ) :=
  let t := (((t.cancelEvrTimer u U).call U.subr S.conf.completionCb (.completion p)).modifyUps u
    fun U => if U.detachResp then { U with resp := none } else U).modifySubr U.subr
      fun S => { S with state := .none }
  if cf.canReuse && S.conf.keepalive && P.supportsKeepAlives p then
    some { (t.modifyUps u fun U => { U with outQ := none, resp := none, nconn := none }) with
      ctl := .running { f with ups := none, idle := true } }
  else t.teardownDone f .ok

/-- A read that returned bytes: they are parsed, the client is told, and the response may be
complete. -/
def readData (P : RespParser σ) (cf : TConf) (t : TSrvr σ) (f : Frame) (bytes : List UInt8)
    (upsReadOk : Bool) : Option (TSrvr σ) :=
  match f.ups with
  | none => some t
  | some u => do
      let U ← t.upsSessions u
      let S ← t.subrs U.subr
      match U.resp with
      | none => if S.conf.u = some .proxy then t.teardownDone f .badGateway else some t
      | some p =>
          let (p', parsed) := P.execute p bytes
          let t := t.modifyUps u fun U => { U with resp := some p' }
          if parsed < bytes.length then t.teardownDone f .badGateway
          else
            let t := if S.conf.u.isSome && P.complete p' then
              t.modifySubr U.subr fun S => { S with upsDone := true } else t
            if S.conf.u = some .proxy ∧ !upsReadOk then t.teardownDone f .badGateway
            else if P.complete p' then t.complete P cf f u U S p'
            else some t

/-- The state `CONNECTED` in the mode `READ`. -/
def passRead (P : RespParser σ) (cf : TConf) (t : TSrvr σ) (f : Frame) :
    ReadIn → Option (TSrvr σ)
  | .data bytes upsReadOk => if bytes = [] then none else t.readData P cf f bytes upsReadOk
  | .again => t.passAgain f
  | .error => t.teardownDone f .badGateway
  | .readUnavailable =>
      match f.ups with
      | none => some t
      | some u => some ((t.modifyUps u fun U => { U with again := true }).finish f true)
  | .eof =>
      match f.ups with
      | none => (t.modifyConn f.nconn fun n => { n with data := none }).teardownDone f .ok
      | some u => do
          let U ← t.upsSessions u
          let S ← t.subrs U.subr
          ((t.eof u U S).modifyConn f.nconn fun n => { n with data := none }).teardownDone f .ok

/-- The state `CONNECTED` in the mode `WRITE`. -/
def passWrite (t : TSrvr σ) (f : Frame) (n : UpsConn) (i : UpsConn.Send) : Option (TSrvr σ) :=
  match f.ups with
  | none => some (t.finish f true)
  | some u => do
      let U ← t.upsSessions u
      match U.outQ with
      | none => some (t.finish f true)
      | some 0 => some (t.finish f true)
      | some left =>
          let t := t.modifyConn f.nconn fun _ => (n.ncwrite i).1
          match (n.ncwrite i).2 with
          | .accept k =>
              let t := t.modifyUps u fun U => { U with outQ := some (left - k) }
              some (if left - k = 0 then t.finish f true else t)
          | .status .again => t.passAgain f
          -- the connection is done, and `state_top` tears it down
          | .status _ => t.teardownDone f .ok

/-- One pass through `state_top`; in the modes `TIMEOUT` and `ERROR`, the part before it. -/
def pass (P : RespParser σ) (cf : TConf) (t : TSrvr σ) (f : Frame) (i : PassIn) :
    Option (TSrvr σ) := do
  let n ← t.conn f.nconn
  match f.mode, n.state, i with
  | .error, _, .error => t.teardownDone f .badGateway
  | .timeout, .free, .timeout _ => some (t.finish f true)
  | .timeout, _, .timeout expired =>
      match f.ups with
      | none => some (t.finish f false)
      | some u =>
          if expired then t.teardownDone f .badGateway
          else some ((t.addEvrTimer u f.nconn).finish f true)
  | .read, .free, .setup i | .write, .free, .setup i =>
      match n.ncsetup i with
      | (n, true) => some (t.modifyConn f.nconn fun _ => { n with state := .connecting })
      | (n, false) => some ((t.modifyConn f.nconn fun _ => n).finish f false)
  | .read, .connecting, .connect i | .write, .connecting, .connect i =>
      match n.ncconnect i with
      | (n, .error) => (t.modifyConn f.nconn fun _ => n).teardownDone f .badGateway
      | (n, _) =>
          if n.isConnecting then some ((t.modifyConn f.nconn fun _ => n).finish f true)
          else some (t.modifyConn f.nconn fun _ => { n with state := .connected })
  | .read, .connected, .read i => t.passRead P cf f i
  | .write, .connected, .write i => t.passWrite f n i
  | _, _, _ => none

/-- `ups_session::evr_event_timeout_cb`: the timer event `e` fires. -/
def evrEventTimeoutCb (t : TSrvr σ) (e : ℕ) : Option (TSrvr σ) := do
  let (_, c) ← t.timers.find? (·.1 = e)
  let n ← t.conn c
  let t := { t with timers := t.timers.filter (·.1 ≠ e) }
  match n.data with
  | none => t.enter c .timeout none
  | some u => (t.modifyUps u fun U => { U with evrTimeout := none }).enter c .timeout none

/-! ## The resolver and the client -/

/-- `adns_resolved_cb`, for the job `j`. -/
def adnsResolvedCb (t : TSrvr σ) (j : ℕ) (found : Bool) : Option (TSrvr σ) := do
  let (_, s) ← t.jobs.find? (·.1 = j)
  let S ← t.subrs s
  let t := { t with jobs := t.jobs.filter (·.1 ≠ j) }.modifySubr s
    fun S => { S with lookupJob := none }
  some (if found then t.subrEnqueue s else t.call s S.conf.errorCb (.error .badGateway))

/-- `subr::cancel`. -/
def cancel (t : TSrvr σ) (s : ℕ) (S : Subr) : Option (TSrvr σ) :=
  match S.state with
  | .none => some t
  | .queued =>
      some (({ t with
        subrList := t.subrList.map
          fun (n, p) => (n, if some n = S.iQ then none else p) }.modifySubr s
            fun S => { S with state := .none }).call s S.conf.errorCb (.error .gatewayTimeout))
  | .dnsLookup =>
      some (({ t with jobs := t.jobs.filter fun p => some p.1 ≠ S.lookupJob }.call s S.conf.errorCb
        (.error .gatewayTimeout)).modifySubr s fun S => { S with state := .none })
  | .active =>
      match S.upsSession with
      | none =>
          some ((t.call s S.conf.errorCb (.error .gatewayTimeout)).modifySubr s
            fun S => { S with state := .none })
      | some u => do
          let U ← t.upsSessions u
          let c ← U.nconn
          (t.teardown (some u) c .gatewayTimeout).map
            fun t => t.modifySubr s fun S => { S with state := .none }

/-- The client session is torn down: `ups_cancel` unless the upstream object is done, and then the
object is deleted. -/
def sessionTeardown (t : TSrvr σ) (s : ℕ) : Option (TSrvr σ) := do
  let S ← t.subrs s
  if S.conf.u.isNone then none
  else if S.upsDone then some { t with ctl := .deleting s }
  else
    ((t.modifySubr s fun S => { S with upsDone := true }).cancel s S).map
      fun t => { t with ctl := .deleting s }

/-- `~ups_session`. -/
def deleteUps (t : TSrvr σ) (u : ℕ) (U : UpsSession σ) : Option (TSrvr σ) :=
  let t := { t.cancelEvrTimer u U with upsSessions := Function.update t.upsSessions u none }
  match U.nconn with
  | none => some t
  | some c => t.release c

/-- `~subr`. -/
def deleteSubr (t : TSrvr σ) (s : ℕ) : Option (TSrvr σ) := do
  let S ← t.subrs s
  let t := { t with subrs := Function.update t.subrs s none, ctl := .between }
  match S.upsSession with
  | none => some t
  | some u => (t.upsSessions u).bind (t.deleteUps u)

/-! ## Steps -/

/-- What a server thread can do next. -/
inductive Label where
  | enqueue (conf : SubrConf)
  | dequeue
  | turn (i : TurnIn)
  | fd (c : ℕ) (mode : EvrMode)
  | timeout (e : ℕ)
  | pass (i : PassIn)
  | resolved (j : ℕ) (found : Bool)
  | jobLost (j : ℕ)
  | cancel (s : ℕ)
  | sessionTeardown (s : ℕ)
  | delete
  | reap
deriving DecidableEq, Repr

/-- One step.  Events are handled between two events; the callbacks of the resolver may also be
called from within `lookup_async`. -/
def step (P : RespParser σ) (cf : TConf) (t : TSrvr σ) (l : Label) : Option (TSrvr σ) :=
  match t.ctl, l with
  | .between, .enqueue conf => some (t.enqueue conf)
  | .between, .dequeue => some { t with ctl := .dequeuing }
  | .dequeuing, .turn i => t.turn P cf i
  | .between, .fd c mode =>
      if mode = .none ∨ mode = .timeout then none else t.enter c mode none
  | .between, .timeout e => t.evrEventTimeoutCb e
  | .running f, .pass i => t.pass P cf f i
  | .between, .resolved j found | .dequeuing, .resolved j found => t.adnsResolvedCb j found
  | .between, .jobLost j | .dequeuing, .jobLost j =>
      some { t with jobs := t.jobs.filter (·.1 ≠ j) }
  | .between, .cancel s => (t.subrs s).bind (t.cancel s)
  | .between, .sessionTeardown s => t.sessionTeardown s
  | .deleting s, .delete => t.deleteSubr s
  | .between, .reap =>
      t.nconnProxyPool.reap.map fun p => { t with nconnProxyPool := p }
  | _, _ => none

/-- A server thread, with every order of events and every answer of the sockets, the resolver, the
clock and the clients. -/
def machine (P : RespParser σ) (cf : TConf) : Machine (TSrvr σ) Label where
  start t := t = new cf
  step t l t' := t.step P cf l = some t'

end TSrvr

/-! ## One response -/

/-- `HTTP/1.1 200 OK` and `Content-Length: 0`, each with its line end, and an empty line. -/
def okResponse : List UInt8 :=
  [72, 84, 84, 80, 47, 49, 46, 49, 32, 50, 48, 48, 32, 79, 75, 13, 10, 67, 111, 110, 116, 101,
   110, 116, 45, 76, 101, 110, 103, 116, 104, 58, 32, 48, 13, 10, 13, 10]

/-- `http_parser` on an upstream that sends this response: its state is what it has seen. -/
def okParser : RespParser (List UInt8) where
  init := []
  execute p bytes := (p ++ bytes, bytes.length)
  complete p := p = okResponse
  supportsKeepAlives p := p = okResponse
  headersComplete p := p = okResponse
  messageNeedsEof _ := false

/-- A thread with four parallel connections and a resolver that answers later. -/
def okConf : TConf := ⟨4, true, false, -1⟩

/-- A proxied subrequest for `http://up:80`. -/
def okSubr : SubrConf where
  scheme := .tcp
  host := "up"
  port := 80
  serverLabel := ""
  hostname := ""
  keepalive := true
  detachResp := false
  completionCb := true
  errorCb := true
  tlsVerify := false
  tlsSelfOk := false
  tlsNoHostCheck := false
  u := some .proxy

end Is2
