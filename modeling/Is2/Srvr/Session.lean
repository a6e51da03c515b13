import Is2.Core.Machine
import Is2.Nconn.Transfer
import Is2.Srvr.Chunking
import Is2.Srvr.UrlFields

/-!
# The client session

`session.cc` drives a client connection by one function, `run_state_machine`, which the event loop
calls when the connection can be read or written.  One call goes around its loop (`state_top`)
until a branch returns.  Here every turn of that loop is a step; `call` remembers that the session
is inside a call, so that no other event can come in between.

What the code does not decide is in the labels: what the socket answers, where the allocator has
put the blocks of the input queue, what the request handler does, what an upstream object says.
`http_parser` is a parameter, and so is `http_parser_parse_url`.

`given`, `handled`, `deferred` and `responses` are histories.  They say what the parser and the
callbacks were given since the last `init`, what `handle_req` was called with, which of these calls
are still to be answered, and what was serialized, for which request.
Left out are the statistics, the access log, the traces and the timers of the session, and what a
handler does to the input queue other than reading from it.
-/

namespace Is2

/-! ## Responses -/

/-- `api_resp`; the headers in the order of the map. -/
structure ApiResp where
  status : ℕ
  headers : List (List UInt8 × List (List UInt8))
  bodyData : Option (List UInt8)
deriving DecidableEq, Repr

namespace ApiResp

/-- `sprintf("%u ", status)`. -/
def statusStr (n : ℕ) : List UInt8 := (Nat.toDigits 10 n).map (fun c => UInt8.ofNat c.toNat) ++ [32]

/-- `nbq_write_status`: the buffers written; `codes` is `S_CODE_RESP_MAP`. -/
def writeStatus (codes : ℕ → Option (List UInt8)) (status : ℕ) : List (Option (List UInt8)) :=
  match codes status with
  | some reason =>
      -- "HTTP/1.1 ", the code, the reason, CR LF
      [some [72, 84, 84, 80, 47, 49, 46, 49, 32], some (statusStr status), some reason,
        some [13, 10]]
  | none =>
      -- "HTTP/1.1 900 Missing", without the line end
      [some [72, 84, 84, 80, 47, 49, 46, 49, 32, 57, 48, 48, 32, 77, 105, 115, 115, 105, 110, 103]]

/-- As much of a string as a 32-bit length says. -/
def cut (s : List UInt8) : List UInt8 := s.take (s.length % 2 ^ 32)

/-- `nbq_write_header`, which takes 32-bit lengths. -/
def writeHeader (key val : List UInt8) : List (Option (List UInt8)) :=
  [some (cut key), some [58, 32], some (cut val), some [13, 10]]

/-- `nbq_write_body`; the second buffer is a null pointer without a body. -/
def writeBody (body : Option (List UInt8)) : List (Option (List UInt8)) := [some [13, 10], body]

/-- The buffers `api_resp::serialize` writes, in order. -/
def buffers (codes : ℕ → Option (List UInt8)) (r : ApiResp) : List (Option (List UInt8)) :=
  writeStatus codes r.status ++
  r.headers.flatMap (fun h => if h.1 = [] then [] else h.2.flatMap (writeHeader h.1)) ++
  writeBody (r.bodyData.filter (· ≠ []))

/-- The bytes of the response. -/
def bytes (codes : ℕ → Option (List UInt8)) (r : ApiResp) : List UInt8 :=
  (r.buffers codes).flatMap (·.getD [])

/-- `api_resp::serialize`. -/
def serialize (codes : ℕ → Option (List UInt8)) (r : ApiResp) (q : Nbq) : Option Nbq :=
  (r.buffers codes).foldlM (fun q buf => (q.write buf).map (·.1)) q.resetWrite

end ApiResp

/-! ## The parser -/

/-- What `http_parser` reports during one call, with places relative to the buffer.  The callbacks
for the start of a message and for the end of its headers record nothing here. -/
inductive ParserEvent where
  | data (kind : DataKind) (off len : ℕ)
  | complete (keepAlive : Bool)
deriving DecidableEq, Repr

/-- `http_parser`: its state after `http_parser_init`, and `http_parser_execute`, which answers
what it reported and how many bytes it took. -/
structure HttpParser (σ : Type) where
  init : σ
  execute : σ → List UInt8 → σ × List ParserEvent × ℕ

/-- A callback for a buffer with the given bytes at address `buf`. -/
def Hmsg.onEvent (buf : ℤ) (bytes : List UInt8) (h : Hmsg) : ParserEvent → Hmsg
  | .data kind off len => h.onData ⟨kind, buf + off, Cr.slice ⟨off, len⟩ bytes⟩
  | .complete keepAlive => h.hpOnMessageComplete keepAlive

/-- What the parser and the callbacks were given since the last `init`. -/
structure Given where
  url : List UInt8
  keys : List (List UInt8)
  vals : List (List UInt8)
  body : List UInt8
  /-- where in the queue the stretches of body were, put together as `hp_on_body` does -/
  bodyAt : Cr
  /-- the buffers that were parsed, with their places in the queue -/
  bufs : List Buf
deriving DecidableEq, Repr

def Given.empty : Given := ⟨[], [], [], [], ⟨0, 0⟩, []⟩

/-- The bytes that are at `p` in the buffer, which is at `lo` in the queue.  A body callback starts
a range or extends the one there is. -/
def Given.onData (lo : ℕ) (g : Given) (kind : DataKind) (p : Cr) (bytes : List UInt8) : Given :=
  match kind with
  | .url => { g with url := bytes }
  | .status => g
  | .headerField => { g with keys := g.keys ++ [bytes] }
  | .headerValue => { g with vals := g.vals ++ [bytes] }
  | .body =>
      { g with
        body := if g.bodyAt.off = 0 then bytes else g.body ++ bytes
        bodyAt := bodyAdd g.bodyAt ⟨lo + p.off, p.len⟩ }

def Given.onEvent (lo : ℕ) (bytes : List UInt8) (g : Given) : ParserEvent → Given
  | .data kind off len => g.onData lo kind ⟨off, len⟩ (Cr.slice ⟨off, len⟩ bytes)
  | .complete _ => g

/-- A callback for a buffer at address `buf` and at `lo` in the queue: the record and the history
together. -/
def onEventGiven (buf : ℤ) (lo : ℕ) (bytes : List UInt8) (hg : Hmsg × Given) (ev : ParserEvent) :
    Hmsg × Given :=
  (hg.1.onEvent buf bytes ev, hg.2.onEvent lo bytes ev)

/-! ## The session -/

/-- What `handle_req` finds when it is called. -/
structure Handled where
  rqst : Hmsg
  inQ : Nbq
  given : Given
deriving DecidableEq, Repr

/-- A response that was serialized, and for which request: how many were handled before it. -/
structure Response where
  rqst : ℕ
  bytes : List UInt8
deriving DecidableEq, Repr

structure Session (σ : Type) where
  ncState : NcState
  /-- the mode of the call the session is in -/
  call : Option EvrMode
  /-- torn down and deleted -/
  gone : Bool
  inQ : Nbq
  outQ : Option Nbq
  rqst : Hmsg
  parser : σ
  /-- `m_u` is set -/
  ups : Bool
  /-- what the peer has yet to send, and what it was sent -/
  pending : List UInt8
  sent : List UInt8
  given : Given
  handled : List Handled
  deferred : List ℕ
  responses : List Response
deriving DecidableEq, Repr

/-- What the session is given by the server. -/
structure SessionEnv (σ : Type) where
  parser : HttpParser σ
  /-- `http_parser_parse_url` -/
  urls : UrlParser
  /-- `S_CODE_RESP_MAP` -/
  codes : ℕ → Option (List UInt8)
  /-- the response of `send_bad_request` -/
  badRequest : Bool → ApiResp
  /-- `get_block_size()` -/
  bsize : ℕ

/-- What a request handler does. -/
inductive Answer where
  /-- it queues a response -/
  | resp (r : ApiResp)
  /-- it leaves the answer to an upstream object -/
  | upstream
  /-- it answers later -/
  | deferred
  /-- it fails -/
  | failed
deriving DecidableEq, Repr

/-- What an upstream object says when the output queue is empty. -/
inductive UpsState where
  | done (shutdown : Bool)
  | ahead (bytes : List UInt8)
deriving DecidableEq, Repr

namespace Session

variable {σ : Type}

/-- A session as the listener sets it up for a connection on which the peer will send `stream`. -/
def start (env : SessionEnv σ) (stream : List UInt8) : Session σ where
  ncState := .accepting
  call := none
  gone := false
  inQ := Nbq.init env.bsize
  outQ := none
  rqst := Hmsg.init .rqst
  parser := env.parser.init
  ups := false
  pending := stream
  sent := []
  given := .empty
  handled := []
  deferred := []
  responses := []

/-- `return`. -/
def ret (s : Session σ) : Session σ := { s with call := none }

/-- `rqst::init`, with `m_supports_keep_alives` set afterwards. -/
def rqstInit (env : SessionEnv σ) (keepAlive : Bool) (s : Session σ) : Session σ :=
  { s with
    rqst := { Hmsg.init .rqst with supportsKeepAlives := keepAlive }
    parser := env.parser.init
    given := .empty }

/-- `queue_api_resp`, for a request. -/
def queueApiResp (env : SessionEnv σ) (rqst : ℕ) (r : ApiResp) (s : Session σ) :
    Option (Session σ) := do
  let q ← r.serialize env.codes (s.outQ.getD (Nbq.init env.bsize))
  some { s with outQ := some q, responses := s.responses ++ [⟨rqst, r.bytes env.codes⟩] }

/-- `get_url`: whether there is a URL that the parser accepts; the copy of it is read from the
queue. -/
def getUrl (env : SessionEnv σ) (s : Session σ) : Option (Session σ × Bool) := do
  let (q, url) ← s.rqst.getUrl s.inQ
  some ({ s with inQ := q }, (env.urls.parseUrl (ApiResp.cut url)).isSome)

/-- `session::handle_req`: the session and whether the status is `STATUS_OK`. -/
def handleReq (env : SessionEnv σ) (a : Answer) (s : Session σ) : Option (Session σ × Bool) := do
  let rqst := s.handled.length
  let (s, ok) ← getUrl env { s with handled := s.handled ++ [⟨s.rqst, s.inQ, s.given⟩] }
  if !ok then some (s, false)
  else
    match a with
    | .resp r => do
        let s ← s.queueApiResp env rqst r
        some (s, true)
    | .upstream => some ({ s with ups := true }, true)
    | .deferred => some ({ s with deferred := s.deferred ++ [rqst] }, true)
    | .failed => some (s, false)

/-- What is not decided by the code in a turn that reads. -/
structure ReadTurn where
  sock : SockRead
  /-- the addresses of the blocks of the input queue -/
  layout : ℕ → ℤ
  /-- the socket's answer to the interim response -/
  interim : SockWrite
  answer : Answer

/-- What is not decided by the code in a turn that writes. -/
structure WriteTurn where
  sock : SockWrite
  ups : UpsState

/-- `b_write_data_ptr()`. -/
def bWriteDataPtr (layout : ℕ → ℤ) (q : Nbq) : Option ℤ :=
  match q.curWriteBlock with
  | .block i => some (layout i)
  | .stop => some 0
  | .freed => none

/-- The parse of what was read: the offset base `m_cur_off` is set behind it. -/
def parseRead (env : SessionEnv σ) (layout : ℕ → ℤ) (off : ℕ) (r : NcRead) (s : Session σ) :
    Option (Session σ × ℕ) := do
  let base ← bWriteDataPtr layout r.q
  let (parser, evs, parsed) := env.parser.execute s.parser r.bytes
  let buf := layout r.block + r.pos
  let (rqst, given) := evs.foldl (onEventGiven buf off r.bytes)
    ({ s.rqst with curBuf := base }, s.given)
  some ({ s with
      inQ := r.q, pending := r.pending, parser := parser
      rqst := { rqst with curOff := off }
      given := { given with bufs := given.bufs ++ [⟨buf, off, off + r.bytes.length⟩] } }, parsed)

/-- The interim response `HTTP/1.1 100 Continue`. -/
def expReply : List UInt8 :=
  [72, 84, 84, 80, 47, 49, 46, 49, 32, 49, 48, 48, 32, 67, 111, 110, 116, 105, 110, 117, 101,
    13, 10, 13, 10]

/-- Send the interim response if a request asked for it. -/
def sendExpect (sock : SockWrite) (s : Session σ) : Option (Session σ) :=
  if s.rqst.expect then do
    let (q, _) ← (Nbq.init 64).write (some expReply)
    let (_, _, out) ← Nconn.ncWrite q sock
    some { s with sent := s.sent ++ out, rqst := { s.rqst with expect := false } }
  else some s

/-- Dispatch a request that is complete. -/
def dispatch (env : SessionEnv σ) (a : Answer) (s : Session σ) : Option (Session σ) :=
  if s.rqst.complete then do
    let (s, ok) ← s.handleReq env a
    if ok then
      let s := s.rqstInit env s.rqst.supportsKeepAlives
      some { s with inQ := s.inQ.resetWrite }
    else some { s with ncState := .done }
  else some s

/-- What follows a read and its parse. -/
def finishRead (env : SessionEnv σ) (t : ReadTurn) (s : Session σ) : Option (Session σ) := do
  let s ← s.sendExpect t.interim
  s.dispatch env t.answer

/-- A turn in state `CONNECTED` and mode `READ`. -/
def readTurn (env : SessionEnv σ) (t : ReadTurn) (s : Session σ) : Option (Session σ) := do
  let off := s.inQ.curWriteOffset
  let r ← Nconn.ncRead s.inQ s.pending t.sock
  let s := { s with inQ := r.q, pending := r.pending }
  match r.status with
  | .ok =>
      if r.bytes = [] then s.finishRead env t
      else
        let (s, parsed) ← s.parseRead env t.layout off r
        if parsed < r.bytes.length then
          let s ← s.queueApiResp env s.handled.length (env.badRequest s.rqst.supportsKeepAlives)
          some s.ret
        else s.finishRead env t
  | .eof => some { s with ncState := .done }
  | .error => some { s with ncState := .done }
  | _ => some s.ret

/-- The response is done: on to the next request, or to the end of the session. -/
def respDone (env : SessionEnv σ) (shutdown : Bool) (q : Nbq) (s : Session σ) : Session σ :=
  let s := { s with outQ := some q.resetWrite }
  if !shutdown && s.rqst.supportsKeepAlives then
    { s.rqstInit env true with ncState := .connected, call := none }
  else { s with ncState := .done }

/-- A turn in state `CONNECTED` and mode `WRITE`. -/
def writeTurn (env : SessionEnv σ) (t : WriteTurn) (s : Session σ) : Option (Session σ) := do
  let (q, st, out) ← Nconn.ncWrite (s.outQ.getD (Nbq.init env.bsize)) t.sock
  let s := { s with outQ := some q, sent := s.sent ++ out }
  match st with
  | .ok =>
      if q.readAvail = 0 then
        if s.ups then
          match t.ups with
          | .done shutdown => some (respDone env shutdown q { s with ups := false })
          | .ahead [] => some s.ret
          | .ahead (x :: xs) =>
              let (q, _) ← q.write (some (x :: xs))
              some { s with outQ := some q }
        else some (respDone env false q s)
      else some s
  | .eof => some { s with ncState := .done }
  | .error => some { s with ncState := .done }
  | _ => some s.ret

/-- What can happen to a session. -/
inductive Act where
  /-- the event loop calls `run_state_machine` -/
  | event (mode : EvrMode) (expired : Bool)
  /-- a turn of its loop finds the server stopped -/
  | stopped
  /-- `ncaccept`: a status, and whether the connection is still accepting -/
  | accept (st : NcStatus) (accepting : Bool)
  | read (t : ReadTurn)
  | write (t : WriteTurn)
  /-- a turn in a state in which nothing can be read or written -/
  | top
  /-- a handler that answers later queues its response to the request -/
  | respond (rqst : ℕ) (r : ApiResp)

/-- The start of `run_state_machine`: a read or write goes on to the loop, an error or an expired
timeout tears the session down. -/
def event (mode : EvrMode) (expired : Bool) (s : Session σ) : Session σ :=
  match mode with
  | .read => { s with call := some mode }
  | .write => { s with call := some mode }
  | .error => if s.ncState = .free then s else { s with gone := true }
  | .timeout => if s.ncState = .free then s else if expired then { s with gone := true } else s
  | .none => s

/-- One step.  A turn needs a call, everything else the absence of one. -/
def step (env : SessionEnv σ) (s : Session σ) (a : Act) : Option (Session σ) :=
  if s.gone then none
  else
    match s.call, a with
    | none, .event mode expired => some (s.event mode expired)
    | none, .respond i r =>
        if i ∈ s.deferred then queueApiResp env i r { s with deferred := s.deferred.erase i }
        else none
    | some _, .stopped => some s.ret
    | some _, .accept st accepting =>
        if s.ncState = .accepting then
          if st = .error ∨ accepting then some s.ret else some { s with ncState := .connected }
        else none
    | some .read, .read t => if s.ncState = .connected then s.readTurn env t else none
    | some .write, .write t => if s.ncState = .connected then s.writeTurn env t else none
    | some _, .top =>
        match s.ncState with
        | .done => some { s.ret with gone := true }
        | .accepting => none
        | .connected => none
        | _ => some s.ret
    | _, _ => none

/-- The session as a machine: any sequence of socket events, for any stream. -/
def machine (env : SessionEnv σ) (stream : List UInt8) : Machine (Session σ) Act where
  start s := s = start env stream
  step s a t := s.step env a = some t

end Session

end Is2
