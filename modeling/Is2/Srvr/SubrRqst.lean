import Is2.Srvr.NconnPool
import Is2.Srvr.Session
import Is2.Srvr.UrlFields

/-!
# The request of a subrequest

`subr` says which server to ask and what for.  A handler fills it in by `init_with_url` and the
setters for the headers; `subr_start` takes an idle connection by the label, and writes the request
by `create_request`.

What becomes of a subrequest after that (its state, its session, its timers) is not part of the
record here.
-/

namespace Is2

open OrderedMap CaseMaps

/-- `subr`, as far as it is about the request. -/
structure SubrRqst where
  scheme : Scheme
  host : Bytes
  port : ℕ
  serverLabel : Bytes
  path : Bytes
  query : Bytes
  fragment : Bytes
  userinfo : Bytes
  verb : Bytes
  keepalive : Bool
  headers : KvMapList
  bodyQ : Option Nbq
deriving DecidableEq, Repr

namespace SubrRqst

/-- The constructor. -/
def new : SubrRqst := ⟨.none, [], 0, [], [], [], [], [], ascii "GET", false, [], none⟩

/-! ## Headers -/

/-- The names that have one value: `set_header` replaces it. -/
def replaces (key : Bytes) : Bool :=
  strcasecmp key (ascii "User-Agent") = 0 || strcasecmp key (ascii "Referer") = 0 ||
    strcasecmp key (ascii "Accept") = 0 || strcasecmp key (ascii "Host") = 0

/-- `subr::set_header`; nothing can be popped from an empty list. -/
def setHeader (s : SubrRqst) (key val : Bytes) : Option SubrRqst :=
  (lookup caseIComp s.headers key).elim
    (some { s with headers := insert caseIComp s.headers key [val] }) fun e =>
      if replaces key then
        if e.2 = [] then none
        else
          let push := if val = [] then [] else [val]
          some { s with headers := update caseIComp s.headers key fun vs => vs.tail ++ push }
      else some { s with headers := update caseIComp s.headers key (· ++ [val]) }

/-- `subr::del_header` -/
def delHeader (s : SubrRqst) (key : Bytes) : SubrRqst :=
  { s with headers := erase caseIComp s.headers key }

/-- `subr::clear_headers` -/
def clearHeaders (s : SubrRqst) : SubrRqst := { s with headers := [] }

/-- `subr::set_keepalive` -/
def setKeepalive (s : SubrRqst) (val : Bool) : Option SubrRqst :=
  let s := { s with keepalive := val }.delHeader (ascii "Connection")
  if val then s.setHeader (ascii "Connection") (ascii "keep-alive") else some s

/-- `subr::set_host` -/
def setHost (s : SubrRqst) (val : Bytes) : Option SubrRqst :=
  ({ s with host := val }.delHeader (ascii "Host")).setHeader (ascii "Host") val

/-! ## Target -/

/-- The digits of a number. -/
def digits (n : ℕ) : Bytes := (Nat.toDigits 10 n).map fun c => UInt8.ofNat c.toNat

def schemePrefix (scheme : Scheme) : Bytes :=
  if scheme = .none then ascii "none://"
  else if scheme = .tcp then ascii "http://"
  else ascii "https://"

/-- The label of the fields as they are. -/
def label (s : SubrRqst) : Bytes := schemePrefix s.scheme ++ s.host ++ ascii ":" ++ digits s.port

/-- `subr::reset_label`, which appends. -/
def resetLabel (s : SubrRqst) : SubrRqst := { s with serverLabel := s.serverLabel ++ s.label }

/-- `subr::get_label` -/
def getLabel (s : SubrRqst) : SubrRqst × Bytes :=
  let s := if s.serverLabel = [] then s.resetLabel else s
  (s, s.serverLabel)

/-- `strtoul(_, NULL, 10)` on digits. -/
def strtoul (s : Bytes) : ℕ := min (decimal (s.takeWhile isDigit)) (2 ^ 64 - 1)

/-- A case of the switch over the fields; an unknown scheme is an error. -/
def setPart (s : SubrRqst) (part : Bytes) : UrlField → Option SubrRqst
  | .schema =>
      if part = ascii "http" then some { s with scheme := .tcp }
      else if part = ascii "https" then some { s with scheme := .tls }
      else none
  | .host => some { s with host := part }
  | .port => some { s with port := strtoul part % 2 ^ 16 }
  | .path => some { s with path := part }
  | .query => some { s with query := part }
  | .fragment => some { s with fragment := part }
  | .userinfo => some { s with userinfo := part }

/-- The loop over the fields, with the object as an error leaves it. -/
def partsLoop (url : Bytes) (parts : UrlField → Cr) : List UrlField → SubrRqst → SubrRqst × Bool
  | [], s => (s, true)
  | k :: ks, s =>
      if (parts k).len ≠ 0 ∧ (parts k).stop ≤ url.length then
        (s.setPart ((parts k).slice url) k).elim (s, false) (partsLoop url parts ks)
      else partsLoop url parts ks s

/-- The port of a scheme. -/
def defaultPort (scheme : Scheme) : ℕ := if scheme = .tls then 443 else 80

/-- The URL with a scheme. -/
def urlFixed (url : Bytes) : Bytes :=
  if ascii "://" <:+: url then url else ascii "http://" ++ url

/-- `subr::init_with_url` -/
def initWithUrl (P : UrlParser) (s : SubrRqst) (url : Bytes) : SubrRqst × Bool :=
  (P.parseUrl (urlFixed url)).elim (s, false) fun parts =>
    let r := partsLoop (urlFixed url) parts UrlField.all { s with port := 0 }
    if r.2 ∧ r.1.port = 0 then ({ r.1 with port := defaultPort r.1.scheme }, true) else r

/-! ## Request -/

/-- A string up to its first NUL. -/
def cStr (s : Bytes) : Bytes := s.takeWhile (· ≠ 0)

/-- What is asked for. -/
def pathRef (s : SubrRqst) : Bytes :=
  (if s.path = [] then ascii "/" else s.path) ++
    if s.query = [] then [] else ascii "?" ++ s.query

/-- `l_buf` is an array of 2048 characters.  `snprintf` fills as much of it as it can and ends that
with a NUL, and answers the length of all the text. -/
def lineBuf (text : Bytes) : Bytes := text.take 2047 ++ [0]

/-- What is written of `l_buf` as the request line; there is nothing behind the array. -/
def requestLine (text : Bytes) : Option Bytes :=
  if text.length ≤ 2048 then some ((lineBuf text).take text.length) else none

/-- What `snprintf` formats. -/
def lineText (s : SubrRqst) : Bytes :=
  cStr s.verb ++ ascii " " ++ cStr s.pathRef ++ ascii " HTTP/1.1"

/-- The buffers behind the request line, up to the body. -/
def headBuffers (serverName : Bytes) (s : SubrRqst) : List (Option Bytes) :=
  let hs := kvPairs s.headers
  (hs.flatMap fun f => ApiResp.writeHeader f.1 f.2) ++
  (if hs.any fun f => strcasecmp f.1 (ascii "host") = 0 then []
    else ApiResp.writeHeader (ascii "Host") s.host) ++
  (if hs.any fun f => strcasecmp f.1 (ascii "user-agent") = 0 then []
    else ApiResp.writeHeader (ascii "User-Agent") serverName) ++
  ApiResp.writeBody none

/-- `subr::create_request` -/
def createRequest (serverName : Bytes) (s : SubrRqst) (q : Nbq) : Option Nbq := do
  let line ← requestLine s.lineText
  let bufs := [some line, some (ascii "\r\n")] ++ headBuffers serverName s
  let q ← bufs.foldlM (fun q buf => (q.write buf).map (·.1)) q
  some (s.bodyQ.elim q q.joinRef)

end SubrRqst

end Is2
