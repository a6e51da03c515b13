import Is2.Ext.HttpParser.Switch

/-!
# `http_parser_execute`

The loop carries out what the turns ask for.  `p` is an address, and so are the marks and the
places in what is reported; the buffer starts at `data`.  A turn that takes more than one byte
leaves the loop with bytes to skip.

The parser as a scanner (`scanner`) takes one byte at a time, each in a buffer of its own.  What
`http_parser_execute` does on a longer buffer is compared with it.
-/

namespace Is2

namespace Http

open Stretches

/-- A call of a callback. -/
abbrev Call := Report DataKind Notice

/-- The marks, in the order in which they are flushed at the end of a buffer. -/
def kinds : List DataKind := [.headerField, .headerValue, .url, .body, .status]

/-- The marks that are set at the start of a buffer. -/
def startMarks (s : State) (data : ℕ) : Marks DataKind := fun k =>
  match s, k with
  | .headerField, .headerField => some data
  | .headerValue, .headerValue => some data
  | .url .spacesBeforeUrl, .url => none
  | .url _, .url => some data
  | .resStatus, .status => some data
  | _, _ => none

/-- The loop, with bytes to skip, and the flush behind it.  The result is what was reported, the
parser, and `p`. -/
def loop (set : Settings) :
    ℕ → ℕ → Parser → Marks DataKind → Bytes → Option (List Call × Parser × ℕ)
  | _, p, P, M, [] =>
      if 1 < (kinds.filter fun k => (M k).isSome).length then none
      else some ((run M (flushes kinds p)).2, P, p)
  | skip + 1, p, P, M, _ :: rest => loop set skip (p + 1) P M rest
  | 0, p, P, M, ch :: rest =>
      match turn set P ch rest with
      | .next n P ops =>
          let r := run M (ops.map (Act.shift p))
          (loop set (n - 1) (p + 1) P r.1 rest).map fun t => (r.2 ++ t.1, t.2)
      | .ret n P ops => some ((run M (ops.map (Act.shift p))).2, P, p + n)
      | .abort => none

/-- `http_parser_execute`: what it reports, the parser, and how many bytes it says it has parsed.
There is no result where an assertion fails. -/
def execute (set : Settings) (P : Parser) (data : ℕ) (bytes : Bytes) :
    Option (List Call × Parser × ℕ) :=
  if P.httpErrno ≠ .ok then some ([], P, 0)
  else if bytes = [] then
    match P.state with
    | .bodyIdentityEof => some ([.note (.messageComplete P.shouldKeepAlive) data], P, 0)
    | .dead | .startRes | .startReq => some ([], P, 0)
    | _ => some ([], { P with httpErrno := .invalidEofState }, 1)
  else (loop set 0 data P (startMarks P.state data) bytes).map fun r => (r.1, r.2.1, r.2.2 - data)

/-! ## One byte at a time -/

/-- The kind of stretch a state is in. -/
def openKind : State → Option DataKind
  | .headerField => some .headerField
  | .headerValue => some .headerValue
  | .url .spacesBeforeUrl => none
  | .url _ => some .url
  | .resStatus => some .status
  | .bodyIdentity | .bodyIdentityEof | .chunkData | .chunkDataAlmostDone => some .body
  | _ => none

/-- What a turn on one byte comes to, if it is no error. -/
def byteStep (set : Settings) (P : Parser) (ch : UInt8) : Option (Parser × List Op) :=
  match turn set P ch [] with
  | .next _ P ops => some (P, ops)
  | .ret _ P ops => if P.httpErrno = .ok then some (P, ops) else none
  | .abort => none

/-- The parser, one byte at a time.  Behind a message with an upgrade it stops. -/
def scanner (set : Settings) : Scanner Parser UInt8 DataKind Notice where
  step := byteStep set
  last P ch :=
    match turn set P ch [] with
    | .ret _ _ _ => true
    | _ => false
  openKind P := openKind P.state
  lazy k := k = .body

end Http

end Is2
