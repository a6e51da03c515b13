import Is2.Srvr.InQueue
import Is2.Srvr.Offsets

/-!
# The recorded offsets of a response

An upstream session reads the response into a queue.  Unlike the session of the client it sets both
bases in front of every parse: the buffer that `nc_read` has stored to, and the write offset from
before the read.  So a pointer into that buffer is recorded as its place in the queue, wherever in a
block the read started and however many reads there were (`ups_offsets_designate`).

This is about a session with an input queue of its own; `subr_start` shares the client's output
queue when it proxies.  The queue is then only read into, and copied from; once the response is
detached, only copied from.  `log` is a history of the ranges that the callbacks record, with the
bytes they were given; no code reads it.
-/

namespace Is2

/-- A range that a callback has recorded, and the bytes it was given. -/
structure Noted where
  kind : DataKind
  range : Cr
  bytes : Bytes
deriving DecidableEq, Repr

/-- Who has the queue and the response: the session, the receiver they were detached for, or nobody
any more. -/
inductive Owner where
  | session
  | receiver
  | gone
deriving DecidableEq, Repr

/-- What an upstream session has to do with the response: `m_in_q`, `m_resp` and its parser, and
what the upstream still has to send. -/
structure UpsIn (σ : Type) where
  inQ : Nbq
  resp : Hmsg
  parser : σ
  pending : Bytes
  owner : Owner
  log : List Noted

/-! ## Callbacks -/

namespace Hmsg

/-- Whether a callback records an offset: for the body only the first one does. -/
def records (h : Hmsg) : DataKind → Bool
  | .url => h.type = .rqst
  | .status => h.type = .resp
  | .headerField => true
  | .headerValue => true
  | .body => h.pBody.off = 0

/-- The range that a callback records. -/
def noted (h : Hmsg) (buf : ℤ) (bytes : Bytes) : ParserEvent → List Noted
  | .data kind off len =>
      if h.records kind then
        [⟨kind, h.place (buf + off) (Cr.slice ⟨off, len⟩ bytes), Cr.slice ⟨off, len⟩ bytes⟩]
      else []
  | .complete _ => []

/-- The record and the history together. -/
def onEventNoted (buf : ℤ) (bytes : Bytes) (x : Hmsg × List Noted) (ev : ParserEvent) :
    Hmsg × List Noted :=
  (x.1.onEvent buf bytes ev, x.2 ++ x.1.noted buf bytes ev)

end Hmsg

/-! ## The session -/

/-- What a turn of `run_state_machine` in mode `READ` meets: the answer of the socket, where in
memory the room for it is, whether the response is detached when it is done, and whether `ups_read`
fails. -/
structure UpsRead where
  sock : SockRead
  buf : ℤ
  detach : Bool
  fails : Bool

/-- What can happen to the queue and the response. -/
inductive UpsInAct where
  | read (t : UpsRead)
  | copyPart (off len : ℕ)
  | teardown

namespace UpsIn

variable {σ : Type}

/-- What `subr_start` chooses for the input queue, and whether it is the client's. -/
def inQOf (bsize : ℕ) (proxies : Bool) (outQ : Option Nbq) : Nbq × Bool :=
  if proxies then outQ.elim (Nbq.init bsize, false) fun q => (q, true) else (Nbq.init bsize, false)

/-- The session that `subr_start` makes. -/
def subrStart (P : HttpParser σ) (inQ : Nbq) (stream : Bytes) : UpsIn σ :=
  ⟨inQ, Hmsg.init .resp, P.init, stream, .session, []⟩

/-- The session is done with the response, if it still has it. -/
def release (detach : Bool) (s : UpsIn σ) : UpsIn σ :=
  if s.owner = .session then { s with owner := if detach then .receiver else .gone } else s

/-- What follows a read: the response may be complete. -/
def finishRead (t : UpsRead) (s : UpsIn σ) : UpsIn σ :=
  if s.resp.complete then s.release t.detach else s

/-- The parse of what was read, which started at the write offset `off`. -/
def parseRead (P : HttpParser σ) (t : UpsRead) (off : ℕ) (bytes : Bytes) (s : UpsIn σ) :
    UpsIn σ × ℕ :=
  let resp := { s.resp with curBuf := t.buf, curOff := off }
  let (parser, events, parsed) := P.execute s.parser bytes
  let (resp, log) := events.foldl (Hmsg.onEventNoted t.buf bytes) (resp, s.log)
  ({ s with resp := resp, parser := parser, log := log }, parsed)

/-- A turn in mode `READ`.  A session that has given its response away has no queue to read into. -/
def readTurn (P : HttpParser σ) (t : UpsRead) (s : UpsIn σ) : Option (UpsIn σ) :=
  if s.owner ≠ .session then some s
  else do
    let off := s.inQ.curWriteOffset
    let r ← Nconn.ncRead s.inQ s.pending t.sock
    let s := { s with inQ := r.q, pending := r.pending }
    match r.status with
    | .ok =>
        if r.bytes = [] then some (s.finishRead t)
        else
          let (s, parsed) := s.parseRead P t off r.bytes
          if parsed < r.bytes.length ∨ t.fails then some (s.release false)
          else some (s.finishRead t)
    | .readUnavailable => some s
    | .again => some s
    | .brk => some s
    | .eof => some (s.release t.detach)
    | _ => some (s.release false)

def step (P : HttpParser σ) (s : UpsIn σ) : UpsInAct → Option (UpsIn σ)
  | .read t => s.readTurn P t
  | .copyPart off len =>
      if s.owner = .gone then none
      else (s.inQ.copyPart off len).map fun r => { s with inQ := r.1 }
  | .teardown => some (s.release false)

/-- A session that has an input queue of its own. -/
def machine (P : HttpParser σ) (bsize : ℕ) (stream : Bytes) : Machine (UpsIn σ) UpsInAct where
  start s := ∃ proxies outQ, (inQOf bsize proxies outQ).2 = false ∧
    s = subrStart P (inQOf bsize proxies outQ).1 stream
  step s a t := s.step P a = some t

/-! ## The property -/

/-- The ranges that were recorded for a kind. -/
def rangesOf (log : List Noted) (kind : DataKind) : List Cr :=
  (log.filter fun x => x.kind = kind).map Noted.range

/-- **The record is right**: it is what the history says, and every range in the history designates
the bytes that its callback was given. -/
structure Right (s : UpsIn σ) : Prop where
  status : s.resp.pStatus = (rangesOf s.log .status).getLast?.getD ⟨0, 0⟩
  keys : s.resp.pHListKey = rangesOf s.log .headerField
  vals : s.resp.pHListVal = rangesOf s.log .headerValue
  body : s.resp.pBody.off = ((rangesOf s.log .body).getLast?.getD ⟨0, 0⟩).off
  designates : ∀ x ∈ s.log, Designates s.inQ x.range x.bytes

/-! ## One callback -/

section Callbacks

variable {h : Hmsg} {log : List Noted} {buf : ℤ} {bytes c : Bytes}

/-- The message is what the history says. -/
structure Tracks (h : Hmsg) (log : List Noted) : Prop where
  type : h.type = .resp
  status : h.pStatus = (rangesOf log .status).getLast?.getD ⟨0, 0⟩
  keys : h.pHListKey = rangesOf log .headerField
  vals : h.pHListVal = rangesOf log .headerValue
  body : h.pBody.off = ((rangesOf log .body).getLast?.getD ⟨0, 0⟩).off

lemma rangesOf_append (log log' : List Noted) (kind : DataKind) :
    rangesOf (log ++ log') kind = rangesOf log kind ++ rangesOf log' kind := by
  simp [rangesOf, List.filter_append]

lemma rangesOf_noted (h : Hmsg) (kind k : DataKind) (off len : ℕ) :
    rangesOf (h.noted buf bytes (.data kind off len)) k =
      if h.records kind ∧ kind = k then [h.place (buf + off) (Cr.slice ⟨off, len⟩ bytes)]
      else [] := by
  rw [Hmsg.noted]
  by_cases hr : h.records kind
  · by_cases hk : kind = k
    · subst hk
      simp [rangesOf, hr]
    · simp [rangesOf, hr, hk]
  · simp [rangesOf, hr]

/-- A callback records what it adds to the history. -/
lemma Tracks.onEvent (ht : Tracks h log) (ev : ParserEvent) :
    Tracks (h.onEvent buf bytes ev) (log ++ h.noted buf bytes ev) := by
  cases ev with
  | complete ka =>
      rw [Hmsg.noted, List.append_nil]
      exact ⟨ht.type, ht.status, ht.keys, ht.vals, ht.body⟩
  | data kind off len =>
      refine ⟨?_, ?_, ?_, ?_, ?_⟩
      · rw [Hmsg.onEvent, Hmsg.onData_type, ht.type]
      · rw [Hmsg.onEvent, Hmsg.onData_pStatus, rangesOf_append, rangesOf_noted, ht.status]
        by_cases hk : kind = .status
        · simp [hk, ht.type, Hmsg.records]
        · simp [hk]
      · rw [Hmsg.onEvent, Hmsg.onData_pHListKey, rangesOf_append, rangesOf_noted, ht.keys]
        by_cases hk : kind = .headerField
        · simp [hk, Hmsg.records]
        · simp [hk]
      · rw [Hmsg.onEvent, Hmsg.onData_pHListVal, rangesOf_append, rangesOf_noted, ht.vals]
        by_cases hk : kind = .headerValue
        · simp [hk, Hmsg.records]
        · simp [hk]
      · rw [Hmsg.onEvent, Hmsg.onData_pBody_off, rangesOf_append, rangesOf_noted]
        by_cases hk : kind = .body
        · by_cases h0 : h.pBody.off = 0
          · simp [hk, h0, Hmsg.records, Hmsg.place]
          · simp [hk, h0, Hmsg.records, ← ht.body]
        · simp [hk, ht.body]

/-- With right bases a callback records the place of its bytes. -/
lemma spans_noted {ev : ParserEvent} (hbuf : h.curBuf = buf) (hoff : h.curOff = c.length)
    (hfit : c.length + bytes.length < 2 ^ 64)
    (hin : ∀ k off len, ev = .data k off len → off + len ≤ bytes.length) :
    ∀ x ∈ h.noted buf bytes ev, Spans (c ++ bytes) x.range x.bytes := by
  cases ev with
  | complete ka => simp [Hmsg.noted]
  | data kind off len =>
      intro x hx
      rw [Hmsg.noted] at hx
      split_ifs at hx
      · obtain rfl := List.mem_singleton.mp hx
        have hlen := hin kind off len rfl
        have hbase : buf - h.curBuf + h.curOff = (c.length : ℤ) := by
          rw [hbuf, hoff, Int.sub_self, Int.zero_add]
        rw [place_eq hbase hfit hlen]
        exact spans_of_appended hlen
      · simp at hx

/-- All callbacks of a parse. -/
lemma Tracks.onEvents {evs : List ParserEvent} :
    ∀ {h : Hmsg} {log : List Noted}, Tracks h log → h.curBuf = buf → h.curOff = c.length →
      c.length + bytes.length < 2 ^ 64 →
      (∀ k off len, .data k off len ∈ evs → off + len ≤ bytes.length) →
      (∀ x ∈ log, Spans (c ++ bytes) x.range x.bytes) →
      Tracks (evs.foldl (Hmsg.onEventNoted buf bytes) (h, log)).1
          (evs.foldl (Hmsg.onEventNoted buf bytes) (h, log)).2 ∧
        ∀ x ∈ (evs.foldl (Hmsg.onEventNoted buf bytes) (h, log)).2,
          Spans (c ++ bytes) x.range x.bytes := by
  induction evs with
  | nil => exact fun ht _ _ _ _ hall => ⟨ht, hall⟩
  | cons ev evs ih =>
      intro h log ht hbuf hoff hfit hin hall
      obtain ⟨hbuf', hoff'⟩ := onEvent_bases h buf bytes ev
      refine ih (ht.onEvent ev) (hbuf'.trans hbuf) (hoff'.trans hoff) hfit
        (fun k off len hm => hin k off len (List.mem_cons_of_mem _ hm)) ?_
      intro x hx
      rcases List.mem_append.mp hx with hx | hx
      · exact hall x hx
      · exact spans_noted hbuf hoff hfit
          (fun k off len he => hin k off len (by rw [he]; exact List.mem_cons_self)) x hx

end Callbacks

/-! ## Runs -/

section Runs

variable {σ : Type} {P : HttpParser σ} {stream : Bytes} {s t : UpsIn σ}

/-- The invariant: the record is right in the bytes that the queue holds, which are what the
upstream has sent so far. -/
structure Inv (stream : Bytes) (s : UpsIn σ) : Prop where
  streamed : s.inQ.Streamed
  sent : s.inQ.contents ++ s.pending = stream
  tracks : Tracks s.resp s.log
  spans : ∀ x ∈ s.log, Spans s.inQ.contents x.range x.bytes

lemma Inv.release (h : Inv stream s) (detach : Bool) : Inv stream (s.release detach) := by
  rw [UpsIn.release]
  by_cases ho : s.owner = .session
  · rw [if_pos ho]
    exact ⟨h.streamed, h.sent, h.tracks, h.spans⟩
  · rw [if_neg ho]
    exact h

lemma Inv.finishRead (h : Inv stream s) (u : UpsRead) : Inv stream (s.finishRead u) := by
  rw [UpsIn.finishRead]
  split_ifs
  · exact h.release _
  · exact h

/-- A parse records places in the bytes that were read. -/
lemma Inv.parseRead (hP : InBounds P) (hfit : stream.length < 2 ^ 64) (h : Inv stream s)
    {u : UpsRead} {r : NcRead} (hr : Nconn.ncRead s.inQ s.pending u.sock = some r) :
    Inv stream (({ s with inQ := r.q, pending := r.pending } : UpsIn σ).parseRead P u
      s.inQ.curWriteOffset r.bytes).1 := by
  obtain ⟨hst, hc, hp⟩ := h.streamed.ncRead hr
  obtain ⟨⟨_, _, hwf⟩, -⟩ := h.streamed
  have hsent : r.q.contents ++ r.pending = stream := by
    rw [hc, List.append_assoc, ← hp, h.sent]
  have hlen : s.inQ.contents.length + r.bytes.length < 2 ^ 64 := by
    have := congrArg List.length hsent
    rw [List.length_append, hc, List.length_append] at this
    omega
  have htr : Tracks { s.resp with curBuf := u.buf, curOff := s.inQ.curWriteOffset } s.log :=
    ⟨h.tracks.type, h.tracks.status, h.tracks.keys, h.tracks.vals, h.tracks.body⟩
  have hsp : ∀ x ∈ s.log, Spans (s.inQ.contents ++ r.bytes) x.range x.bytes :=
    fun x hx => (h.spans x hx).append r.bytes
  obtain ⟨htracks, hspans⟩ := htr.onEvents rfl hwf.offset_eq hlen
    (fun k off len hm => hP s.parser r.bytes k off len hm) hsp
  refine ⟨hst, hsent, htracks, ?_⟩
  intro x hx
  show Spans r.q.contents x.range x.bytes
  rw [hc]
  exact hspans x hx

/-- **A turn that reads keeps the record right.** -/
lemma Inv.readTurn (hP : InBounds P) (hfit : stream.length < 2 ^ 64) (h : Inv stream s)
    {u : UpsRead} (he : s.readTurn P u = some t) : Inv stream t := by
  rw [UpsIn.readTurn] at he
  split_ifs at he with howner
  · exact Option.some.inj he ▸ h
  obtain ⟨r, hr, he⟩ := Option.bind_eq_some_iff.mp he
  obtain ⟨hst, hc, hp⟩ := h.streamed.ncRead hr
  have hread : Inv stream { s with inQ := r.q, pending := r.pending } := by
    refine ⟨hst, ?_, h.tracks, fun x hx => ?_⟩
    · show r.q.contents ++ r.pending = stream
      rw [hc, List.append_assoc, ← hp, h.sent]
    · show Spans r.q.contents x.range x.bytes
      rw [hc]
      exact (h.spans x hx).append r.bytes
  have hparse := h.parseRead hP hfit hr
  cases hstat : r.status with
  | ok =>
      simp only [hstat] at he
      split_ifs at he with hnil hbad
      · exact Option.some.inj he ▸ hread.finishRead u
      · exact Option.some.inj he ▸ hparse.release false
      · exact Option.some.inj he ▸ hparse.finishRead u
  | readUnavailable =>
      simp only [hstat] at he
      exact Option.some.inj he ▸ hread
  | again =>
      simp only [hstat] at he
      exact Option.some.inj he ▸ hread
  | brk =>
      simp only [hstat] at he
      exact Option.some.inj he ▸ hread
  | eof =>
      simp only [hstat] at he
      exact Option.some.inj he ▸ hread.release u.detach
  | _ =>
      simp only [hstat] at he
      exact Option.some.inj he ▸ hread.release false

lemma Inv.step (hP : InBounds P) (hfit : stream.length < 2 ^ 64) (h : Inv stream s)
    {a : UpsInAct} (he : s.step P a = some t) : Inv stream t := by
  cases a with
  | read u => exact h.readTurn hP hfit he
  | teardown => exact Option.some.inj he ▸ h.release false
  | copyPart off len =>
      rw [UpsIn.step] at he
      split_ifs at he
      obtain ⟨⟨q, bytes⟩, hcopy, rfl⟩ := Option.map_eq_some_iff.mp he
      have hc := h.streamed.contents_copyPart hcopy
      refine ⟨(h.streamed.copyPart hcopy).1, ?_, h.tracks, fun x hx => ?_⟩
      · show q.contents ++ s.pending = stream
        rw [hc, h.sent]
      · show Spans q.contents x.range x.bytes
        rw [hc]
        exact h.spans x hx

lemma Inv.right (h : Inv stream s) : Right s where
  status := h.tracks.status
  keys := h.tracks.keys
  vals := h.tracks.vals
  body := h.tracks.body
  designates x hx := by
    obtain ⟨hstop, hbytes⟩ := h.spans x hx
    obtain ⟨q', he, -⟩ := h.streamed.readable.copyPart x.range
    rw [Cr.padded_of_le hstop, hbytes] at he
    exact ⟨q', he⟩

end Runs

/-- A response with a header and two bytes of body. -/
def okResponse : Message where
  bytes := ascii "HTTP/1.1 200 OK\r\nA: b\r\n\r\nhi"
  elements := [⟨.status, ⟨13, 2⟩⟩, ⟨.headerField, ⟨17, 1⟩⟩, ⟨.headerValue, ⟨20, 1⟩⟩,
    ⟨.body, ⟨25, 2⟩⟩]
  fits := by decide
  ordered := by decide
  oneUrl := by decide
  within := by decide
  delimited := by decide
  nonempty := by decide
  bodyLater := by decide

end UpsIn

end Is2
