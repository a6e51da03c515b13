import Is2.Core.Stretches
import Is2.Ext.HttpParser.State

/-!
# The `switch` of `http_parser_execute`

One turn of the loop looks at the bytes from `p` to the end of the buffer.  Most cases look at one
byte; the cases of a header name, a header value and a body run on as far as they can.  A case is a
function of its own, and `REEXECUTE` is a call of the case it jumps to.

A turn does not know where `p` points.  What it does with the marks and the callbacks is a list of
operations, with places relative to `p`, and the loop carries them out.  The callbacks of the
server return 0, apart from `on_headers_complete`, so the ways out of the callback macros are not
part of the model.  A failed assertion is `abort`.
-/

namespace Is2

namespace Http

open Stretches

/-- A call of a callback without data, with what the callbacks read from the parser. -/
inductive Notice where
  | messageBegin
  | headersComplete (httpMajor httpMinor : ℕ) (method : Method) (statusCode : ℕ)
  | messageComplete (keepAlive : Bool)
  | chunkHeader (contentLength : ℕ)
  | chunkComplete
deriving DecidableEq, Repr

/-- What a turn does: `mark` is `MARK`, `flush` is `CALLBACK_DATA` for the bytes from the mark on,
and `note` is `CALLBACK_NOTIFY`. -/
abbrev Op := Act DataKind Notice

/-- How a turn ends. -/
inductive Turn where
  /-- the loop goes on at `p + n` -/
  | next (n : ℕ) (P : Parser) (ops : List Op)
  /-- the function returns, with `p + n` -/
  | ret (n : ℕ) (P : Parser) (ops : List Op)
  | abort
deriving DecidableEq, Repr

/-- The results of `on_headers_complete`, which is given the parser. -/
structure Settings where
  onHeadersComplete : Parser → ℕ

namespace Turn

/-- The turn with operations before it. -/
def after (ops : List Op) : Turn → Turn
  | next n P ops' => next n P (ops ++ ops')
  | ret n P ops' => ret n P (ops ++ ops')
  | abort => abort

/-- The turn, seen from `n` bytes before. -/
def shift (n : ℕ) : Turn → Turn
  | next m P ops => next (m + n) P (ops.map (Act.shift n))
  | ret m P ops => ret (m + n) P (ops.map (Act.shift n))
  | abort => abort

end Turn

/-! ## The macros -/

/-- `UPDATE_STATE(s); break;` -/
def go (P : Parser) (s : State) : Turn := .next 1 { P with state := s } []

/-- `SET_ERRNO(e); goto error;` -/
def fail (P : Parser) (e : Errno) : Turn := .ret 0 { P with httpErrno := e } []

/-- `COUNT_HEADER_SIZE(v)` with `p` advanced by `n`, and then `k`. -/
def counted (P : Parser) (v n : ℕ) (k : Parser → Turn) : Turn :=
  let P := { P with nread := (P.nread + v) % 2 ^ 32 }
  if maxHeaderSize < P.nread then .ret n { P with httpErrno := .headerOverflow } []
  else k P

/-- A test for one character, and then a state. -/
def expect (P : Parser) (ch lit : UInt8) (e : Errno) (s : State) : Turn :=
  if ch ≠ lit then fail P e else go P s

/-- `ch - '0'` -/
def digit (ch : UInt8) : ℕ := ch.toNat - 48

/-- `UPDATE_STATE(NEW_MESSAGE()); CALLBACK_NOTIFY(message_complete);` -/
def complete (P : Parser) : Turn :=
  .next 1 P.newMessage [.note (.messageComplete P.shouldKeepAlive) 0]

/-! ## The first line -/

/-- What `s_start_res` and `s_start_req` reset. -/
def resetMessage (P : Parser) : Parser :=
  { P with flags := Flags.none, usesTransferEncoding := false, contentLength := ullongMax }

def startRes (P : Parser) (ch : UInt8) : Turn :=
  if ch = cr || ch = lf then .next 1 P []
  else
    let P := resetMessage P
    if ch = 72 then .next 1 { P with state := .resH } [.note .messageBegin 0]
    else fail P .invalidConstant

/-- The cases of a digit of the protocol version. -/
def versionDigit (P : Parser) (ch : UInt8) (set : Parser → ℕ → Parser) (s : State) : Turn :=
  if !isNum ch then fail P .invalidVersion else go (set P (digit ch)) s

def resFirstStatusCode (P : Parser) (ch : UInt8) : Turn :=
  if !isNum ch then
    if ch = sp then .next 1 P [] else fail P .invalidStatus
  else go { P with statusCode := digit ch } .resStatusCode

def resStatus (P : Parser) (ch : UInt8) : Turn :=
  if ch = cr then .next 1 { P with state := .resLineAlmostDone } [.flush .status 0]
  else if ch = lf then .next 1 { P with state := .headerFieldStart } [.flush .status 0]
  else .next 1 P []

def resStatusStart (P : Parser) (ch : UInt8) : Turn :=
  let P := { P with state := .resStatus, index := 0 }
  if ch = cr || ch = lf then (resStatus P ch).after [.mark .status 0]
  else .next 1 P [.mark .status 0]

def resStatusCode (P : Parser) (ch : UInt8) : Turn :=
  if !isNum ch then
    if ch = sp then go P .resStatusStart
    else if ch = cr || ch = lf then resStatusStart { P with state := .resStatusStart } ch
    else fail P .invalidStatus
  else
    let P := { P with statusCode := P.statusCode * 10 + digit ch }
    if 999 < P.statusCode then fail P .invalidStatus
    else .next 1 P []

/-- The method a first letter stands for until more is known. -/
def firstMethod (ch : UInt8) : Option Method :=
  if ch = 65 then some .acl
  else if ch = 66 then some .bind
  else if ch = 67 then some .connect
  else if ch = 68 then some .delete
  else if ch = 71 then some .get
  else if ch = 72 then some .head
  else if ch = 76 then some .lock
  else if ch = 77 then some .mkcol
  else if ch = 78 then some .notify
  else if ch = 79 then some .options
  else if ch = 80 then some .post
  else if ch = 82 then some .report
  else if ch = 83 then some .subscribe
  else if ch = 84 then some .trace
  else if ch = 85 then some .unlock
  else none

def startReq (P : Parser) (ch : UInt8) : Turn :=
  if ch = cr || ch = lf then .next 1 P []
  else
    let P := resetMessage P
    if !isAlpha ch then fail P .invalidMethod
    else
      let P := { P with method := .delete, index := 1 }
      match firstMethod ch with
      | some m => .next 1 { P with method := m, state := .reqMethod } [.note .messageBegin 0]
      | none => fail P .invalidMethod

/-- The table of `s_req_method`: the method that the letter at a place turns a method into. -/
def otherMethod (m : Method) (pos : ℕ) (ch : UInt8) : Option Method :=
  match m, pos with
  | .post, 1 =>
      if ch = 85 then some .put
      else if ch = 65 then some .patch
      else if ch = 82 then some .propfind
      else none
  | .put, 2 => if ch = 82 then some .purge else none
  | .connect, 1 => if ch = 72 then some .checkout else none
  | .connect, 2 => if ch = 80 then some .copy else none
  | .mkcol, 1 =>
      if ch = 79 then some .move
      else if ch = 69 then some .merge
      else if ch = 45 then some .msearch
      else none
  | .mkcol, 2 => if ch = 65 then some .mkactivity else none
  | .mkcol, 3 => if ch = 65 then some .mkcalendar else none
  | .subscribe, 1 =>
      if ch = 69 then some .search
      else if ch = 79 then some .source
      else none
  | .report, 2 => if ch = 66 then some .rebind else none
  | .propfind, 4 => if ch = 80 then some .proppatch else none
  | .lock, 1 => if ch = 73 then some .link else none
  | .unlock, 2 =>
      if ch = 83 then some .unsubscribe
      else if ch = 66 then some .unbind
      else none
  | .unlock, 3 => if ch = 73 then some .unlink else none
  | _, _ => none

def reqMethod (P : Parser) (ch : UInt8) : Turn :=
  if ch = 0 then fail P .invalidMethod
  else
    let matcher := P.method.str.getD P.index 0
    if ch = sp && matcher = 0 then
      .next 1 { P with state := .url .spacesBeforeUrl, index := P.index + 1 } []
    else if ch = matcher then .next 1 { P with index := P.index + 1 } []
    else if (65 ≤ ch && ch ≤ 90) || ch = 45 then
      match otherMethod P.method P.index ch with
      | some m => .next 1 { P with method := m, index := P.index + 1 } []
      | none => fail P .invalidMethod
    else fail P .invalidMethod

/-- `UPDATE_STATE(parse_url_char(CURRENT_STATE(), ch))`, and the test behind it. -/
def urlChar (P : Parser) (s : UrlState) (ch : UInt8) : Turn :=
  match parseUrlChar s ch with
  | some s' => go P (.url s')
  | none => fail { P with state := .dead } .invalidUrl

def reqSpacesBeforeUrl (P : Parser) (ch : UInt8) : Turn :=
  if ch = sp then .next 1 P []
  else (urlChar P (if P.method = .connect then .serverStart else .spacesBeforeUrl) ch).after
    [.mark .url 0]

/-- The states in front of the server. -/
def reqSchema (P : Parser) (s : UrlState) (ch : UInt8) : Turn :=
  if ch = sp || ch = cr || ch = lf then fail P .invalidUrl
  else urlChar P s ch

/-- The other states of a URL. -/
def reqUrl (P : Parser) (s : UrlState) (ch : UInt8) : Turn :=
  if ch = sp then .next 1 { P with state := .reqHttpStart } [.flush .url 0]
  else if ch = cr || ch = lf then
    .next 1 { P with
      httpMajor := 0
      httpMinor := 9
      state := if ch = cr then .reqLineAlmostDone else .headerFieldStart } [.flush .url 0]
  else urlChar P s ch

/-- The cases of the states of a URL. -/
def url (P : Parser) (s : UrlState) (ch : UInt8) : Turn :=
  match s with
  | .spacesBeforeUrl => reqSpacesBeforeUrl P ch
  | .schema | .schemaSlash | .schemaSlashSlash | .serverStart => reqSchema P s ch
  | _ => reqUrl P s ch

def reqHttpStart (P : Parser) (ch : UInt8) : Turn :=
  if ch = sp then .next 1 P []
  else if ch = 72 then go P .reqHttpH
  else if ch = 73 && P.method = .source then go P .reqHttpI
  else fail P .invalidConstant

def reqHttpEnd (P : Parser) (ch : UInt8) : Turn :=
  if ch = cr then go P .reqLineAlmostDone
  else if ch = lf then go P .headerFieldStart
  else fail P .invalidVersion

/-! ## The end of a message -/

def messageDone (P : Parser) : Turn :=
  let ops := [.note (.messageComplete P.shouldKeepAlive) 0]
  if P.upgrade then .ret 1 P.newMessage ops else .next 1 P.newMessage ops

def headersDone (P : Parser) (ch : UInt8) : Turn :=
  if ch ≠ lf then fail P .strict
  else
    let P := { P with nread := 0 }
    let hasBody := P.flags.chunked || (0 < P.contentLength && P.contentLength ≠ ullongMax)
    if P.upgrade && (P.method = .connect || P.flags.skipbody || !hasBody) then
      .ret 1 P.newMessage [.note (.messageComplete P.shouldKeepAlive) 0]
    else if P.flags.skipbody then complete P
    else if P.flags.chunked then go P .chunkSizeStart
    else if P.usesTransferEncoding then
      if P.type = .request && !P.lenientHttpHeaders then fail P .invalidTransferEncoding
      else go P .bodyIdentityEof
    else if P.contentLength = 0 then complete P
    else if P.contentLength ≠ ullongMax then go P .bodyIdentity
    else if !P.messageNeedsEof then complete P
    else go P .bodyIdentityEof

/-- The switch on the result of `on_headers_complete`, and what follows it. -/
def headersComplete (P : Parser) (result : ℕ) (ch : UInt8) : Turn :=
  let skipbody := { P.flags with skipbody := true }
  match result with
  | 0 => headersDone P ch
  | 1 => headersDone { P with flags := skipbody } ch
  | 2 => headersDone { P with upgrade := true, flags := skipbody } ch
  | _ => fail P .cbHeadersComplete

def headersAlmostDone (set : Settings) (P : Parser) (ch : UInt8) : Turn :=
  if ch ≠ lf then fail P .strict
  else if P.flags.trailing then
    (messageDone { P with state := .messageDone }).after [.note .chunkComplete 0]
  else if P.usesTransferEncoding && P.flags.contentlength &&
      (if P.flags.chunked then !P.allowChunkedLength else !P.lenientHttpHeaders) then
    fail P .unexpectedContentLength
  else
    let P := { P with
      state := .headersDone
      upgrade := if P.flags.upgrade && P.flags.connectionUpgrade then
        P.type = .request || P.statusCode = 101 else P.method = .connect }
    (headersComplete P (set.onHeadersComplete P) ch).after
      [.note (.headersComplete P.httpMajor P.httpMinor P.method P.statusCode) 0]

/-! ## The names of headers -/

/-- One more character in a comparison with a word: the word may not agree, it may be through, or
there is more to come. -/
def compareChar (word : Bytes) (index : ℕ) (c : UInt8) (miss hit more : HeaderState) :
    HeaderState :=
  if word.length < index || c ≠ word.getD index 0 then miss
  else if index = word.length - 1 then hit
  else more

def headerFieldStart (set : Settings) (P : Parser) (ch : UInt8) : Turn :=
  if ch = cr then go P .headersAlmostDone
  else if ch = lf then headersAlmostDone set { P with state := .headersAlmostDone } ch
  else
    let c := token ch
    if c = 0 then fail P .invalidHeaderToken
    else
      let h : HeaderState :=
        if c = 99 then .c
        else if c = 112 then .matchingProxyConnection
        else if c = 116 then .matchingTransferEncoding
        else if c = 117 then .matchingUpgrade
        else .general
      .next 1 { P with state := .headerField, index := 0, headerState := h } [.mark .headerField 0]

/-- The `switch` in the loop over a name, for the states other than `h_general`. -/
def fieldChar (P : Parser) (ch : UInt8) : Option Parser :=
  let c := token ch
  let P' := { P with index := P.index + 1 }
  match P.headerState with
  | .c => some { P' with headerState := if c = 111 then .co else .general }
  | .co => some { P' with headerState := if c = 110 then .con else .general }
  | .con => some { P' with
      headerState := if c = 110 then .matchingConnection
        else if c = 116 then .matchingContentLength else .general }
  | .matchingConnection => some { P' with
      headerState := compareChar (ascii "connection") P'.index c .general .connection
        .matchingConnection }
  | .matchingProxyConnection => some { P' with
      headerState := compareChar (ascii "proxy-connection") P'.index c .general .connection
        .matchingProxyConnection }
  | .matchingContentLength => some { P' with
      headerState := compareChar (ascii "content-length") P'.index c .general .contentLength
        .matchingContentLength }
  | .matchingTransferEncoding =>
      let h := compareChar (ascii "transfer-encoding") P'.index c .general .transferEncoding
        .matchingTransferEncoding
      some { P' with
        headerState := h
        usesTransferEncoding := P.usesTransferEncoding || h = .transferEncoding }
  | .matchingUpgrade => some { P' with
      headerState := compareChar (ascii "upgrade") P'.index c .general .upgrade
        .matchingUpgrade }
  | .connection | .contentLength | .transferEncoding | .upgrade =>
      some { P with headerState := if ch ≠ sp then .general else P.headerState }
  | _ => none

/-- The loop over a name: the parser, the number of bytes, and the byte that is no token if there
is one.  In `h_general` the tokens that follow are passed over, up to a limit. -/
def fieldLoop : Parser → ℕ → ℕ → Bytes → Option (Parser × ℕ × Option UInt8)
  | P, _, n, [] => some (P, n, none)
  | P, skip + 1, n, _ :: q => fieldLoop P skip (n + 1) q
  | P, 0, n, ch :: q =>
      if token ch = 0 then some (P, n, some ch)
      else if P.headerState = .general then
        fieldLoop P ((q.take (maxHeaderSize - 1)).takeWhile (token · ≠ 0)).length (n + 1) q
      else
        match fieldChar P ch with
        | some P => fieldLoop P 0 (n + 1) q
        | none => none

def headerField (P : Parser) (bytes : Bytes) : Turn :=
  match fieldLoop P 0 0 bytes with
  | none => .abort
  | some (P, n, none) => counted P (n - 1) (n - 1) fun P => .next n P []
  | some (P, n, some ch) => counted P n n fun P =>
      if ch = 58 then
        .next (n + 1) { P with state := .headerValueDiscardWs } [.flush .headerField n]
      else .ret n { P with httpErrno := .invalidHeaderToken } []

/-! ## The values of headers -/

def headerValueStart (P : Parser) (ch : UInt8) : Turn :=
  let P := { P with state := .headerValue, index := 0 }
  let c := lower ch
  let become (P : Parser) (h : HeaderState) : Turn := .next 1 { P with headerState := h } []
  (match P.headerState with
    | .upgrade => become { P with flags := { P.flags with upgrade := true } } .general
    | .transferEncoding =>
        become P (if c = 99 then .matchingTransferEncodingChunked
          else .matchingTransferEncodingToken)
    | .contentLength =>
        if !isNum ch then fail P .invalidContentLength
        else if P.flags.contentlength then fail P .unexpectedContentLength
        else become { P with
          flags := { P.flags with contentlength := true }
          contentLength := digit ch } .contentLengthNum
    | .connection =>
        become P (if c = 107 then .matchingConnectionKeepAlive
          else if c = 99 then .matchingConnectionClose
          else if c = 117 then .matchingConnectionUpgrade
          else .matchingConnectionToken)
    | .matchingTransferEncodingTokenStart | .contentLengthWs
    | .matchingConnectionTokenStart => .next 1 P []
    | _ => become P .general).after [.mark .headerValue 0]

def headerValueDiscardWs (P : Parser) (ch : UInt8) : Turn :=
  if ch = sp || ch = ht then .next 1 P []
  else if ch = cr then go P .headerValueDiscardWsAlmostDone
  else if ch = lf then go P .headerValueDiscardLws
  else headerValueStart P ch

/-- What the `switch` in the loop over a value comes to. -/
inductive ValueChar where
  | next (P : Parser) (h : HeaderState)
  | err (P : Parser)
  | abort
deriving DecidableEq, Repr

/-- A digit of a content length, or the blank behind it. -/
def contentLengthNum (P : Parser) (ch : UInt8) : ValueChar :=
  let bad := { P with headerState := .contentLengthNum, httpErrno := .invalidContentLength }
  if ch = sp then .next P .contentLengthWs
  else if !isNum ch then .err bad
  else if (ullongMax - 10) / 10 < P.contentLength then .err bad
  else .next { P with contentLength := P.contentLength * 10 + digit ch } .contentLengthNum

/-- The start of a token of a list: the states for the words it may be. -/
def tokenStart (c : UInt8) (words : List (UInt8 × HeaderState)) (token' start : HeaderState) :
    HeaderState :=
  match words.find? fun w => w.1 = c with
  | some w => w.2
  | none => if token c ≠ 0 then token' else if c = sp || c = ht then start else .general

/-- The `switch` in the loop over a value, for the states other than `h_general`. -/
def valueChar (P : Parser) (h : HeaderState) (ch : UInt8) : ValueChar :=
  let c := lower ch
  let P' := { P with index := P.index + 1 }
  let restart := { P with index := 0 }
  match h with
  | .connection | .transferEncoding => .abort
  | .contentLength => if ch = sp then .next P .contentLength else contentLengthNum P ch
  | .contentLengthNum => contentLengthNum P ch
  | .contentLengthWs =>
      if ch = sp then .next P .contentLengthWs
      else .err { P with headerState := .contentLengthWs, httpErrno := .invalidContentLength }
  | .matchingTransferEncodingTokenStart =>
      .next P (tokenStart c [(99, .matchingTransferEncodingChunked)]
        .matchingTransferEncodingToken .matchingTransferEncodingTokenStart)
  | .matchingTransferEncodingChunked =>
      .next P' (compareChar (ascii "chunked") P'.index c .matchingTransferEncodingToken
        .transferEncodingChunked .matchingTransferEncodingChunked)
  | .matchingTransferEncodingToken =>
      if ch = 44 then .next restart .matchingTransferEncodingTokenStart
      else .next P .matchingTransferEncodingToken
  | .matchingConnectionTokenStart =>
      .next P (tokenStart c [(107, .matchingConnectionKeepAlive), (99, .matchingConnectionClose),
        (117, .matchingConnectionUpgrade)] .matchingConnectionToken .matchingConnectionTokenStart)
  | .matchingConnectionKeepAlive =>
      .next P' (compareChar (ascii "keep-alive") P'.index c .matchingConnectionToken
        .connectionKeepAlive .matchingConnectionKeepAlive)
  | .matchingConnectionClose =>
      .next P' (compareChar (ascii "close") P'.index c .matchingConnectionToken
        .connectionClose .matchingConnectionClose)
  | .matchingConnectionUpgrade =>
      .next P' (compareChar (ascii "upgrade") P'.index c .matchingConnectionToken
        .connectionUpgrade .matchingConnectionUpgrade)
  | .matchingConnectionToken =>
      if ch = 44 then .next restart .matchingConnectionTokenStart
      else .next P .matchingConnectionToken
  | .transferEncodingChunked =>
      .next P (if ch ≠ sp then .matchingTransferEncodingToken else .transferEncodingChunked)
  | .connectionKeepAlive =>
      if ch = 44 then
        .next { restart with flags := { P.flags with connectionKeepAlive := true } }
          .matchingConnectionTokenStart
      else .next P (if ch ≠ sp then .matchingConnectionToken else .connectionKeepAlive)
  | .connectionClose =>
      if ch = 44 then
        .next { restart with flags := { P.flags with connectionClose := true } }
          .matchingConnectionTokenStart
      else .next P (if ch ≠ sp then .matchingConnectionToken else .connectionClose)
  | .connectionUpgrade =>
      if ch = 44 then
        .next { restart with flags := { P.flags with connectionUpgrade := true } }
          .matchingConnectionTokenStart
      else .next P (if ch ≠ sp then .matchingConnectionToken else .connectionUpgrade)
  | _ => .next P .general

/-- Where the inner loop of `h_general` stops. -/
inductive RunEnd where
  | line
  | bad
  | full
deriving DecidableEq, Repr

/-- The inner loop of `h_general`: how many bytes it passes, and why it stops. -/
def generalRun (lenient : Bool) : ℕ → Bytes → ℕ × RunEnd
  | 0, _ => (0, .full)
  | _, [] => (0, .full)
  | limit + 1, ch :: q =>
      if ch = cr || ch = lf then (0, .line)
      else if !lenient && !isHeaderChar ch then (0, .bad)
      else ((generalRun lenient limit q).1 + 1, (generalRun lenient limit q).2)

/-- How the loop over a value ends, with `p` advanced by `n`. -/
inductive ValueEnd where
  | data (P : Parser) (h : HeaderState) (n : ℕ)
  | cr (P : Parser) (h : HeaderState) (n : ℕ)
  | lf (P : Parser) (h : HeaderState) (n : ℕ)
  | err (P : Parser) (n : ℕ)
  | abort
deriving DecidableEq, Repr

/-- The loop over a value.  When the inner loop runs to its limit, `p` is behind the last byte it
looked at, and the outer loop goes on one further. -/
def valueLoop : Parser → HeaderState → ℕ → ℕ → Bytes → ValueEnd
  | P, h, _, n, [] => .data P h n
  | P, h, skip + 1, n, _ :: q => valueLoop P h skip (n + 1) q
  | P, h, 0, n, ch :: q =>
      let bad := { P with httpErrno := .invalidHeaderToken }
      if ch = cr then .cr P h n
      else if ch = lf then .lf P h n
      else if !P.lenientHttpHeaders && !isHeaderChar ch then .err bad n
      else if h = .general then
        match generalRun P.lenientHttpHeaders maxHeaderSize (ch :: q) with
        | (k, .line) => valueLoop P h (k - 1) (n + 1) q
        | (k, .bad) => .err bad (n + k)
        | (k, .full) => valueLoop P h k (n + 1) q
      else
        match valueChar P h ch with
        | .next P h => valueLoop P h 0 (n + 1) q
        | .err P => .err P n
        | .abort => .abort

def headerAlmostDone (P : Parser) (ch : UInt8) : Turn := expect P ch lf .lfExpected .headerValueLws

def headerValue (P : Parser) (bytes : Bytes) : Turn :=
  match valueLoop P P.headerState 0 0 bytes with
  | .data P h n => counted { P with headerState := h } (n - 1) (n - 1) fun P => .next n P []
  | .cr P h n =>
      (counted { P with state := .headerAlmostDone, headerState := h } n n fun P =>
        .next (n + 1) P []).after [.flush .headerValue n]
  | .lf P h n =>
      counted { P with state := .headerAlmostDone } n n fun P =>
        ((headerAlmostDone { P with headerState := h } lf).shift n).after [.flush .headerValue n]
  | .err P n => .ret n P []
  | .abort => .abort

/-- The flags a header sets when it is through. -/
def finishHeader (P : Parser) : Parser :=
  match P.headerState with
  | .connectionKeepAlive => { P with flags := { P.flags with connectionKeepAlive := true } }
  | .connectionClose => { P with flags := { P.flags with connectionClose := true } }
  | .transferEncodingChunked => { P with flags := { P.flags with chunked := true } }
  | .connectionUpgrade => { P with flags := { P.flags with connectionUpgrade := true } }
  | _ => P

def headerValueLws (set : Settings) (P : Parser) (ch : UInt8) : Turn :=
  if ch = sp || ch = ht then
    let h : HeaderState :=
      if P.headerState = .contentLengthNum then .contentLengthWs else P.headerState
    headerValueStart { P with headerState := h, state := .headerValueStart } ch
  else headerFieldStart set { finishHeader P with state := .headerFieldStart } ch

def headerValueDiscardLws (set : Settings) (P : Parser) (ch : UInt8) : Turn :=
  if ch = sp || ch = ht then go P .headerValueDiscardWs
  else if P.headerState = .contentLength then fail P .invalidContentLength
  else (headerFieldStart set { finishHeader P with state := .headerFieldStart } ch).after
    [.mark .headerValue 0, .flush .headerValue 0]

/-! ## Bodies -/

def bodyIdentity (P : Parser) (bytes : Bytes) : Turn :=
  let toRead := min P.contentLength bytes.length
  if P.contentLength = 0 || P.contentLength = ullongMax then .abort
  else
    let P := { P with contentLength := P.contentLength - toRead }
    if P.contentLength = 0 then
      ((messageDone { P with state := .messageDone }).shift (toRead - 1)).after
        [.mark .body 0, .flush .body toRead]
    else .next toRead P [.mark .body 0]

def chunkSizeStart (P : Parser) (ch : UInt8) : Turn :=
  if P.nread ≠ 1 || !P.flags.chunked then .abort
  else
    match unhex ch with
    | none => fail P .invalidChunkSize
    | some v => go { P with contentLength := v } .chunkSize

def chunkSize (P : Parser) (ch : UInt8) : Turn :=
  if !P.flags.chunked then .abort
  else if ch = cr then go P .chunkSizeAlmostDone
  else
    match unhex ch with
    | none => if ch = 59 || ch = sp then go P .chunkParameters else fail P .invalidChunkSize
    | some v =>
        if (ullongMax - 16) / 16 < P.contentLength then fail P .invalidContentLength
        else .next 1 { P with contentLength := P.contentLength * 16 + v } []

def chunkParameters (P : Parser) (ch : UInt8) : Turn :=
  if !P.flags.chunked then .abort
  else if ch = cr then go P .chunkSizeAlmostDone
  else .next 1 P []

def chunkSizeAlmostDone (P : Parser) (ch : UInt8) : Turn :=
  if !P.flags.chunked then .abort
  else if ch ≠ lf then fail P .strict
  else
    let P := { P with nread := 0 }
    let P := if P.contentLength = 0 then
        { P with flags := { P.flags with trailing := true }, state := .headerFieldStart }
      else { P with state := .chunkData }
    .next 1 P [.note (.chunkHeader P.contentLength) 0]

def chunkData (P : Parser) (bytes : Bytes) : Turn :=
  let toRead := min P.contentLength bytes.length
  if !P.flags.chunked then .abort
  else if P.contentLength = 0 || P.contentLength = ullongMax then .abort
  else
    let P := { P with contentLength := P.contentLength - toRead }
    .next toRead { P with
      state := if P.contentLength = 0 then .chunkDataAlmostDone else P.state } [.mark .body 0]

def chunkDataAlmostDone (P : Parser) (ch : UInt8) : Turn :=
  if !P.flags.chunked then .abort
  else if P.contentLength ≠ 0 then .abort
  else if ch ≠ cr then fail P .strict
  else .next 1 { P with state := .chunkDataDone } [.flush .body 0]

def chunkDataDone (P : Parser) (ch : UInt8) : Turn :=
  if !P.flags.chunked then .abort
  else if ch ≠ lf then fail P .strict
  else .next 1 { P with nread := 0, state := .chunkSizeStart } [.note .chunkComplete 0]

/-! ## The switch -/

/-- The `switch`, for the byte `ch` at `p` and the bytes behind it. -/
def switch (set : Settings) (P : Parser) (ch : UInt8) (rest : Bytes) : Turn :=
  match P.state with
  | .dead => if ch = cr || ch = lf then .next 1 P [] else fail P .closedConnection
  | .startRes => startRes P ch
  | .resH => expect P ch 84 .strict .resHT
  | .resHT => expect P ch 84 .strict .resHTT
  | .resHTT => expect P ch 80 .strict .resHTTP
  | .resHTTP => expect P ch 47 .strict .resHttpMajor
  | .resHttpMajor => versionDigit P ch (fun P d => { P with httpMajor := d }) .resHttpDot
  | .resHttpDot => expect P ch 46 .invalidVersion .resHttpMinor
  | .resHttpMinor => versionDigit P ch (fun P d => { P with httpMinor := d }) .resHttpEnd
  | .resHttpEnd => expect P ch sp .invalidVersion .resFirstStatusCode
  | .resFirstStatusCode => resFirstStatusCode P ch
  | .resStatusCode => resStatusCode P ch
  | .resStatusStart => resStatusStart P ch
  | .resStatus => resStatus P ch
  | .resLineAlmostDone => expect P ch lf .strict .headerFieldStart
  | .startReq => startReq P ch
  | .reqMethod => reqMethod P ch
  | .url s => url P s ch
  | .reqHttpStart => reqHttpStart P ch
  | .reqHttpH => expect P ch 84 .strict .reqHttpHT
  | .reqHttpHT => expect P ch 84 .strict .reqHttpHTT
  | .reqHttpHTT => expect P ch 80 .strict .reqHttpHTTP
  | .reqHttpI => expect P ch 67 .strict .reqHttpIC
  | .reqHttpIC => expect P ch 69 .strict .reqHttpHTTP
  | .reqHttpHTTP => expect P ch 47 .strict .reqHttpMajor
  | .reqHttpMajor => versionDigit P ch (fun P d => { P with httpMajor := d }) .reqHttpDot
  | .reqHttpDot => expect P ch 46 .invalidVersion .reqHttpMinor
  | .reqHttpMinor => versionDigit P ch (fun P d => { P with httpMinor := d }) .reqHttpEnd
  | .reqHttpEnd => reqHttpEnd P ch
  | .reqLineAlmostDone => expect P ch lf .lfExpected .headerFieldStart
  | .headerFieldStart => headerFieldStart set P ch
  | .headerField => headerField P (ch :: rest)
  | .headerValueDiscardWs => headerValueDiscardWs P ch
  | .headerValueStart => headerValueStart P ch
  | .headerValue => headerValue P (ch :: rest)
  | .headerAlmostDone => headerAlmostDone P ch
  | .headerValueLws => headerValueLws set P ch
  | .headerValueDiscardWsAlmostDone => expect P ch lf .strict .headerValueDiscardLws
  | .headerValueDiscardLws => headerValueDiscardLws set P ch
  | .headersAlmostDone => headersAlmostDone set P ch
  | .headersDone => headersDone P ch
  | .bodyIdentity => bodyIdentity P (ch :: rest)
  | .bodyIdentityEof => .next (rest.length + 1) P [.mark .body 0]
  | .messageDone => messageDone P
  | .chunkSizeStart => chunkSizeStart P ch
  | .chunkSize => chunkSize P ch
  | .chunkParameters => chunkParameters P ch
  | .chunkSizeAlmostDone => chunkSizeAlmostDone P ch
  | .chunkData => chunkData P (ch :: rest)
  | .chunkDataAlmostDone => chunkDataAlmostDone P ch
  | .chunkDataDone => chunkDataDone P ch

/-- One turn of the loop: the byte is counted in the states of a header. -/
def turn (set : Settings) (P : Parser) (ch : UInt8) (rest : Bytes) : Turn :=
  if P.state.parsingHeader then counted P 1 0 fun P => switch set P ch rest
  else switch set P ch rest

end Http

end Is2
