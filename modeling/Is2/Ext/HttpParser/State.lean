import Is2.Ext.HttpParser.Chars
import Is2.Srvr.Hmsg

/-!
# The state of `http_parser`

The members of `http_parser` that `http_parser_execute` reads and writes.  The local copies
`p_state` and `nread` are the members themselves.

A parser is initialised for requests or for responses; `HTTP_BOTH` and the two states that are
there for it are not part of the model.  The states inside a URL, which `http_parser_execute` and
`http_parser_parse_url` share, are a type of their own, so that `parse_url_char` is only asked
about those.
-/

namespace Is2

namespace Http

/-- The states that `parse_url_char` knows. -/
inductive UrlState where
  | spacesBeforeUrl
  | schema
  | schemaSlash
  | schemaSlashSlash
  | serverStart
  | server
  | serverWithAt
  | path
  | queryStringStart
  | queryString
  | fragmentStart
  | fragment
deriving DecidableEq, Repr

/-- `enum state`; `url s` stands for `s_req_` and the name of `s`. -/
inductive State where
  | dead
  | startRes
  | resH
  | resHT
  | resHTT
  | resHTTP
  | resHttpMajor
  | resHttpDot
  | resHttpMinor
  | resHttpEnd
  | resFirstStatusCode
  | resStatusCode
  | resStatusStart
  | resStatus
  | resLineAlmostDone
  | startReq
  | reqMethod
  | url (s : UrlState)
  | reqHttpStart
  | reqHttpH
  | reqHttpHT
  | reqHttpHTT
  | reqHttpHTTP
  | reqHttpI
  | reqHttpIC
  | reqHttpMajor
  | reqHttpDot
  | reqHttpMinor
  | reqHttpEnd
  | reqLineAlmostDone
  | headerFieldStart
  | headerField
  | headerValueDiscardWs
  | headerValueDiscardWsAlmostDone
  | headerValueDiscardLws
  | headerValueStart
  | headerValue
  | headerValueLws
  | headerAlmostDone
  | chunkSizeStart
  | chunkSize
  | chunkParameters
  | chunkSizeAlmostDone
  | headersAlmostDone
  | headersDone
  | chunkData
  | chunkDataAlmostDone
  | chunkDataDone
  | bodyIdentity
  | bodyIdentityEof
  | messageDone
deriving DecidableEq, Repr

/-- `PARSING_HEADER`: the states up to `s_headers_done`. -/
def State.parsingHeader : State → Bool
  | chunkData | chunkDataAlmostDone | chunkDataDone | bodyIdentity | bodyIdentityEof
  | messageDone => false
  | _ => true

/-- `enum header_states` -/
inductive HeaderState where
  | general
  | c
  | co
  | con
  | matchingConnection
  | matchingProxyConnection
  | matchingContentLength
  | matchingTransferEncoding
  | matchingUpgrade
  | connection
  | contentLength
  | contentLengthNum
  | contentLengthWs
  | transferEncoding
  | upgrade
  | matchingTransferEncodingTokenStart
  | matchingTransferEncodingChunked
  | matchingTransferEncodingToken
  | matchingConnectionTokenStart
  | matchingConnectionKeepAlive
  | matchingConnectionClose
  | matchingConnectionUpgrade
  | matchingConnectionToken
  | transferEncodingChunked
  | connectionKeepAlive
  | connectionClose
  | connectionUpgrade
deriving DecidableEq, Repr

/-- `http_parser_type` -/
inductive ParserType where
  | request
  | response
deriving DecidableEq, Repr

/-- `http_method` -/
inductive Method where
  | delete
  | get
  | head
  | post
  | put
  | connect
  | options
  | trace
  | copy
  | lock
  | mkcol
  | move
  | propfind
  | proppatch
  | search
  | unlock
  | bind
  | rebind
  | unbind
  | acl
  | report
  | mkactivity
  | checkout
  | merge
  | msearch
  | notify
  | subscribe
  | unsubscribe
  | patch
  | purge
  | mkcalendar
  | link
  | unlink
  | source
deriving DecidableEq, Repr

/-- `method_strings` -/
def Method.str : Method → Bytes
  | delete => ascii "DELETE"
  | get => ascii "GET"
  | head => ascii "HEAD"
  | post => ascii "POST"
  | put => ascii "PUT"
  | connect => ascii "CONNECT"
  | options => ascii "OPTIONS"
  | trace => ascii "TRACE"
  | copy => ascii "COPY"
  | lock => ascii "LOCK"
  | mkcol => ascii "MKCOL"
  | move => ascii "MOVE"
  | propfind => ascii "PROPFIND"
  | proppatch => ascii "PROPPATCH"
  | search => ascii "SEARCH"
  | unlock => ascii "UNLOCK"
  | bind => ascii "BIND"
  | rebind => ascii "REBIND"
  | unbind => ascii "UNBIND"
  | acl => ascii "ACL"
  | report => ascii "REPORT"
  | mkactivity => ascii "MKACTIVITY"
  | checkout => ascii "CHECKOUT"
  | merge => ascii "MERGE"
  | msearch => ascii "M-SEARCH"
  | notify => ascii "NOTIFY"
  | subscribe => ascii "SUBSCRIBE"
  | unsubscribe => ascii "UNSUBSCRIBE"
  | patch => ascii "PATCH"
  | purge => ascii "PURGE"
  | mkcalendar => ascii "MKCALENDAR"
  | link => ascii "LINK"
  | unlink => ascii "UNLINK"
  | source => ascii "SOURCE"

/-- The members of `enum http_errno` that `http_parser_execute` sets. -/
inductive Errno where
  | ok
  | cbHeadersComplete
  | invalidEofState
  | headerOverflow
  | closedConnection
  | invalidVersion
  | invalidStatus
  | invalidMethod
  | invalidUrl
  | lfExpected
  | invalidHeaderToken
  | invalidContentLength
  | unexpectedContentLength
  | invalidChunkSize
  | invalidConstant
  | strict
  | invalidTransferEncoding
deriving DecidableEq, Repr

/-- `enum flags` -/
structure Flags where
  chunked : Bool
  connectionKeepAlive : Bool
  connectionClose : Bool
  connectionUpgrade : Bool
  trailing : Bool
  upgrade : Bool
  skipbody : Bool
  contentlength : Bool
deriving DecidableEq, Repr

def Flags.none : Flags := ⟨false, false, false, false, false, false, false, false⟩

/-- `http_parser` -/
structure Parser where
  type : ParserType
  flags : Flags
  state : State
  headerState : HeaderState
  index : ℕ
  usesTransferEncoding : Bool
  allowChunkedLength : Bool
  lenientHttpHeaders : Bool
  nread : ℕ
  contentLength : ℕ
  httpMajor : ℕ
  httpMinor : ℕ
  statusCode : ℕ
  method : Method
  httpErrno : Errno
  upgrade : Bool
deriving DecidableEq, Repr

/-- `HTTP_MAX_HEADER_SIZE`; the server does not change it. -/
def maxHeaderSize : ℕ := 80 * 1024

/-- `ULLONG_MAX` -/
def ullongMax : ℕ := 2 ^ 64 - 1

namespace Parser

/-- `start_state` -/
def startState (t : ParserType) : State :=
  match t with
  | .request => .startReq
  | .response => .startRes

/-- `http_parser_init` -/
def init (t : ParserType) : Parser where
  type := t
  flags := Flags.none
  state := startState t
  headerState := .general
  index := 0
  usesTransferEncoding := false
  allowChunkedLength := false
  lenientHttpHeaders := false
  nread := 0
  contentLength := 0
  httpMajor := 0
  httpMinor := 0
  statusCode := 0
  method := .delete
  httpErrno := .ok
  upgrade := false

/-- `http_message_needs_eof` -/
def messageNeedsEof (P : Parser) : Bool :=
  if P.type = .request then false
  else if P.statusCode / 100 = 1 || P.statusCode = 204 || P.statusCode = 304 ||
      P.flags.skipbody then false
  else if P.usesTransferEncoding && !P.flags.chunked then true
  else if P.flags.chunked || P.contentLength ≠ ullongMax then false
  else true

/-- `http_should_keep_alive` -/
def shouldKeepAlive (P : Parser) : Bool :=
  if 0 < P.httpMajor ∧ 0 < P.httpMinor then
    if P.flags.connectionClose then false else !P.messageNeedsEof
  else if !P.flags.connectionKeepAlive then false
  else !P.messageNeedsEof

/-- `UPDATE_STATE(NEW_MESSAGE())` -/
def newMessage (P : Parser) : Parser :=
  { P with state := if P.shouldKeepAlive then startState P.type else .dead }

end Parser

/-! ## URLs -/

/-- `parse_url_char`; `none` is `s_dead`. -/
def parseUrlChar (s : UrlState) (ch : UInt8) : Option UrlState :=
  if ch = sp || ch = cr || ch = lf then none
  else if ch = ht || ch = 12 then none
  else match s with
    | .spacesBeforeUrl =>
        if ch = 47 || ch = 42 then some .path
        else if isAlpha ch then some .schema
        else none
    | .schema =>
        if isAlpha ch then some .schema
        else if ch = 58 then some .schemaSlash
        else none
    | .schemaSlash => if ch = 47 then some .schemaSlashSlash else none
    | .schemaSlashSlash => if ch = 47 then some .serverStart else none
    | .serverWithAt => if ch = 64 then none else serverChar ch
    | .serverStart => serverChar ch
    | .server => serverChar ch
    | .path =>
        if isUrlChar ch then some .path
        else if ch = 63 then some .queryStringStart
        else if ch = 35 then some .fragmentStart
        else none
    | .queryStringStart => queryChar ch
    | .queryString => queryChar ch
    | .fragmentStart =>
        if isUrlChar ch then some .fragment
        else if ch = 63 then some .fragment
        else if ch = 35 then some .fragmentStart
        else none
    | .fragment =>
        if isUrlChar ch then some .fragment
        else if ch = 63 || ch = 35 then some .fragment
        else none
where
  /-- the cases of the server, behind the test for a second `@` -/
  serverChar (ch : UInt8) : Option UrlState :=
    if ch = 47 then some .path
    else if ch = 63 then some .queryStringStart
    else if ch = 64 then some .serverWithAt
    else if isUserinfoChar ch || ch = 91 || ch = 93 then some .server
    else none
  /-- the cases of the query string -/
  queryChar (ch : UInt8) : Option UrlState :=
    if isUrlChar ch then some .queryString
    else if ch = 63 then some .queryString
    else if ch = 35 then some .fragmentStart
    else none

end Http

end Is2
