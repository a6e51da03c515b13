import Is2.Srvr.Bases
import Is2.Srvr.Scripted

/-!
# Which requests are dispatched?

The session hands a request to `handle_req` when the parser has reported the end of a message,
after the whole buffer was parsed, and then clears the record *and the parser* for the next
request.  What `handle_req` is given is the record, and the queue that the getters read it from.
Four things go wrong:

* a buffer that holds the end of one request and more: what the parser reported of the next
  request is in the same record, and forgotten with it;
* a response that is done sending while the next request is being read: the record and the parser
  are cleared in the middle of that request;
* a read whose callbacks use bases that are not right: what they record is elsewhere;
* reads that start inside an element of the request or right behind it, so that the record shows the
  fragments.

`DispatchOk` excludes the four.  In runs that meet it, `handle_req` is called for exactly the
requests read so far, each once and in order: the queue holds the bytes of the request, and the
getters give its URL, its headers and its body range (`dispatched_in_order`).
-/

namespace Is2

/-! ## Requests -/

/-- The bytes a callback reports, each with its kind. -/
def elementsOf (bytes : List UInt8) : ParserEvent → List (DataKind × UInt8)
  | .data kind off len => (Cr.slice ⟨off, len⟩ bytes).map (kind, ·)
  | .complete _ => []

def isData : ParserEvent → Bool
  | .data _ _ _ => true
  | .complete _ => false

/-- What the parser does on `piece`, a piece of a request: it takes all of it, it has then
reported `after` where it had reported `before`, and the end of the request is reported with its
last byte only. -/
def ReportsPiece {σ : Type} (out : σ × List ParserEvent × ℕ) (piece : List UInt8)
    (before after : List (DataKind × UInt8)) (next : σ) (last : Bool) : Prop :=
  out.2.2 = piece.length ∧ after = before ++ out.2.1.flatMap (elementsOf piece) ∧
    (last = false → out.1 = next ∧ out.2.1.filterMap endOf = []) ∧
    (last = true → out.2.1.filterMap endOf = [true])

instance {σ : Type} [DecidableEq σ] (out : σ × List ParserEvent × ℕ) (piece : List UInt8)
    (before after : List (DataKind × UInt8)) (next : σ) (last : Bool) :
    Decidable (ReportsPiece out piece before after next last) :=
  inferInstanceAs (Decidable (_ ∧ _ ∧ _ ∧ _))

/-- **A well-formed keep-alive request**, as the parser sees it: whichever way it is cut, the
parser takes all of it, reports its elements in stream order, and reports its end with its last
byte and not before.  The data callbacks for a piece are those of the elements that fall into it. -/
structure Request {σ : Type} (P : HttpParser σ) where
  message : Message
  nonempty : message.bytes ≠ []
  /-- the parser after the first `n` bytes -/
  state : ℕ → σ
  /-- the elements reported by then -/
  reported : ℕ → List (DataKind × UInt8)
  state_zero : state 0 = P.init
  reported_zero : reported 0 = []
  cut : ∀ n k, 0 < k → n + k ≤ message.bytes.length →
    ReportsPiece (P.execute (state n) ((message.bytes.drop n).take k))
      ((message.bytes.drop n).take k)
      (reported n) (reported (n + k)) (state (n + k)) (n + k = message.bytes.length)
  events : ∀ n k, 0 < k → n + k ≤ message.bytes.length →
    (P.execute (state n) ((message.bytes.drop n).take k)).2.1.filter isData =
      message.eventsIn n (n + k) 0

namespace Request

variable {σ : Type} {P : HttpParser σ}

def bytes (r : Request P) : List UInt8 := r.message.bytes

/-- All elements of the request. -/
def elements (r : Request P) : List (DataKind × UInt8) := r.reported r.bytes.length

end Request

/-- The stream of several requests. -/
def streamOf {σ : Type} {P : HttpParser σ} (rs : List (Request P)) : List UInt8 :=
  rs.flatMap (·.bytes)

/-- `handle_req` is called for the request: the queue holds its bytes, and the getters give what
they give of the uncut message. -/
structure Dispatched {σ : Type} {P : HttpParser σ} (r : Request P) (x : Handled) : Prop where
  queue : ∃ a, Nbq.Rep x.inQ a ∧ a.contents = r.bytes
  seen : x.rqst.seen x.inQ = some (r.message.whole .rqst)

/-! ## The callbacks of a piece -/

lemma filterMap_dataCbOf (addr : ℤ) (bytes : List UInt8) (evs : List ParserEvent) :
    evs.filterMap (dataCbOf addr bytes) =
      (evs.filter isData).filterMap (dataCbOf addr bytes) := by
  induction evs with
  | nil => rfl
  | cons ev evs ih =>
      cases ev with
      | data kind off len =>
          rw [List.filter_cons_of_pos rfl, filterMap_cons_toList, filterMap_cons_toList, ih]
      | complete ka =>
          rw [List.filter_cons_of_neg (by simp [isData]), List.filterMap_cons_none rfl, ih]

/-- A slice of a piece is a slice of the whole. -/
lemma slice_drop_take {bytes : List UInt8} {lo hi : ℕ} {p : Cr} (hlo : lo ≤ p.off)
    (hhi : p.stop ≤ hi) :
    Cr.slice ⟨p.off - lo, p.len⟩ ((bytes.drop lo).take (hi - lo)) = p.slice bytes := by
  rw [Cr.stop] at hhi
  rw [Cr.slice, Cr.slice]
  dsimp only
  rw [List.drop_take, List.drop_drop, List.take_take,
    show min p.len (hi - lo - (p.off - lo)) = p.len by omega,
    show lo + (p.off - lo) = p.off by omega]

/-- The callbacks for a piece of a message are those of the elements that fall into it. -/
lemma Message.callbacks_eventsIn (m : Message) {lo hi : ℕ} (h : lo ≤ hi) (addr : ℤ) :
    (m.eventsIn lo hi 0).filterMap (dataCbOf addr ((m.bytes.drop lo).take (hi - lo))) =
      m.elements.filterMap (callback m ⟨addr, lo, hi⟩) := by
  rw [Message.eventsIn, List.filterMap_filterMap]
  refine List.filterMap_congr fun e _ => ?_
  have hsame : piece e.kind ⟨0, lo, hi⟩ e.span = piece e.kind ⟨addr, lo, hi⟩ e.span := rfl
  rw [callback, hsame]
  cases hp : piece e.kind ⟨addr, lo, hi⟩ e.span with
  | none => rfl
  | some p =>
      have hlo := (piece_within hp).2.2
      have hhi := piece_stop_le hp h
      dsimp only at hlo hhi
      simp only [Option.map_some, Option.bind_some, dataCbOf, Nat.add_zero]
      rw [slice_drop_take hlo hhi, Nat.cast_sub hlo]

/-- A buffer behind those that cover a stretch. -/
lemma Covers.concat {lo n hi : ℕ} {bs : List Buf} (hc : Covers lo n bs) (h : n < hi) {addr : ℤ} :
    Covers lo hi (bs ++ [⟨addr, n, hi⟩]) := by
  induction bs generalizing lo with
  | nil =>
      obtain rfl : lo = n := hc
      exact ⟨rfl, h, rfl⟩
  | cons b bs ih => exact ⟨hc.1, hc.2.1, ih hc.2.2⟩

/-! ## Records that look the same -/

/-- Two records that the getters of `handle_req` cannot tell apart. -/
structure Hmsg.Alike (h h' : Hmsg) : Prop where
  type : h.type = h'.type
  url : h.pUrl = h'.pUrl
  keys : h.pHListKey = h'.pHListKey
  vals : h.pHListVal = h'.pHListVal
  body : h.pBody = h'.pBody
  headerList : h.headerList = h'.headerList

section Alike

variable {h h' : Hmsg}

lemma Hmsg.Alike.seen (ha : h.Alike h') (q : Nbq) : h.seen q = h'.seen q := by
  simp only [Hmsg.seen, Hmsg.getUrl, Hmsg.getHeaderList, ha.url, ha.headerList, ha.keys, ha.vals]
  cases h'.headerList <;> simp [ha.body, Option.bind_assoc]

/-- A callback that uses the bases must find the same place. -/
lemma Hmsg.Alike.onData (ha : h.Alike h') {cb : DataCb}
    (hp : h.place cb.ptr cb.bytes = h'.place cb.ptr cb.bytes ∨
      cb.kind = .status ∨ cb.kind = .body ∧ h.pBody.off ≠ 0) :
    (h.onData cb).Alike (h'.onData cb) := by
  obtain ⟨kind, ptr, bytes⟩ := cb
  cases kind with
  | status =>
      simp only [Hmsg.onData, Hmsg.hpOnStatus, ← ha.type]
      split_ifs
      · exact ⟨rfl, ha.url, ha.keys, ha.vals, ha.body, ha.headerList⟩
      · exact ha
  | url =>
      have hplace := hp.resolve_right (by simp)
      simp only [Hmsg.onData, Hmsg.hpOnUrl, ← ha.type]
      split_ifs
      · exact ⟨rfl, hplace, ha.keys, ha.vals, ha.body, ha.headerList⟩
      · exact ha
  | headerField =>
      have hplace := hp.resolve_right (by simp)
      refine ⟨ha.type, ha.url, ?_, ha.vals, ha.body, ha.headerList⟩
      simp only [Hmsg.onData, Hmsg.hpOnHeaderField, ha.keys, hplace]
  | headerValue =>
      have hplace := hp.resolve_right (by simp)
      refine ⟨ha.type, ha.url, ha.keys, ?_, ha.body, ha.headerList⟩
      simp only [Hmsg.onData, Hmsg.hpOnHeaderValue, ha.vals, hplace]
  | body =>
      simp only [Hmsg.onData, Hmsg.hpOnBody, ← ha.body]
      split_ifs with h0
      · have hplace := hp.resolve_right (by simp [h0])
        exact ⟨ha.type, ha.url, ha.keys, ha.vals, hplace, ha.headerList⟩
      · exact ⟨ha.type, ha.url, ha.keys, ha.vals, rfl, ha.headerList⟩

lemma Hmsg.Alike.foldl_onData {cbs : List DataCb} (ha : h.Alike h')
    (hp : h.place = h'.place ∨
      ∀ cb ∈ cbs, cb.kind = .status ∨ cb.kind = .body ∧ h.pBody.off ≠ 0) :
    (cbs.foldl Hmsg.onData h).Alike (cbs.foldl Hmsg.onData h') := by
  induction cbs generalizing h h' with
  | nil => exact ha
  | cons cb cbs ih =>
      refine ih (ha.onData ?_) ?_
      · exact hp.imp (fun hp => by rw [hp]) fun hp => hp cb List.mem_cons_self
      · refine hp.imp (fun hp => ?_) fun hp cb' hcb' => ?_
        · rw [Hmsg.place_onData, Hmsg.place_onData, hp]
        · have hoff : (h.onData cb).pBody.off = h.pBody.off := by
            rw [Hmsg.onData_pBody_off, if_neg]
            rintro ⟨hk, h0⟩
            rcases hp cb List.mem_cons_self with hs | ⟨-, hne⟩
            · rw [hk] at hs
              cases hs
            · exact hne h0
          rw [hoff]
          exact hp cb' (List.mem_cons_of_mem _ hcb')

lemma Hmsg.Alike.foldl_complete (ha : h.Alike h') (ends : List Bool) :
    (ends.foldl Hmsg.hpOnMessageComplete h).Alike h' := by
  induction ends generalizing h with
  | nil => exact ha
  | cons ka ends ih =>
      exact ih ⟨ha.type, ha.url, ha.keys, ha.vals, ha.body, ha.headerList⟩

/-- **The record of a parse** is that of the message, if the bases are right where they are used. -/
lemma Hmsg.Alike.execute {m : Message} {buf base : ℤ} {off lo hi : ℕ} {evs : List ParserEvent}
    {bytes : List UInt8} (ha : h.Alike h') (hbase : h.curBuf = base ∧ h.curOff = off)
    (hcb : evs.filterMap (dataCbOf buf bytes) = m.elements.filterMap (callback m ⟨buf, lo, hi⟩))
    (huse : (∃ ev ∈ evs, usesBases h.pBody ev = true) → buf - base + off = (lo : ℤ)) :
    (evs.foldl (Hmsg.onEvent buf bytes) h).Alike (Is2.execute m h' ⟨buf, lo, hi⟩) := by
  rw [foldl_onEvent, Is2.execute, ← hcb]
  refine Hmsg.Alike.foldl_complete (Hmsg.Alike.foldl_onData ?_ ?_) _
  · exact ⟨ha.type, ha.url, ha.keys, ha.vals, ha.body, ha.headerList⟩
  by_cases hu : ∃ ev ∈ evs, usesBases h.pBody ev = true
  · left
    have hsame := huse hu
    funext ptr bs
    rw [Hmsg.place, Hmsg.place, Hmsg.calcOffset, Hmsg.calcOffset, hbase.1, hbase.2]
    dsimp only
    rw [show ptr - base + off = ptr - buf + lo by omega]
  · right
    intro cb hmem
    obtain ⟨ev, hev, hdata⟩ := List.mem_filterMap.mp hmem
    cases ev with
    | complete ka => cases hdata
    | data kind o len =>
        obtain rfl := Option.some.inj hdata
        have hno : ¬ usesBases h.pBody (.data kind o len) = true := fun h => hu ⟨_, hev, h⟩
        cases kind <;> simp_all [usesBases]

end Alike

namespace Session

variable {σ : Type} {env : SessionEnv σ} {s s' : Session σ} {rs : List (Request env.parser)}

/-! ## The condition -/

/-- How much of the stream was read. -/
def consumed (stream : List UInt8) (s : Session σ) : ℕ := stream.length - s.pending.length

/-- Where the request that is being read ends: the one behind those that were handled. -/
def currentEnd (rs : List (Request env.parser)) (s : Session σ) : ℕ :=
  (streamOf (rs.take (s.handled.length + 1))).length

/-- Where it starts. -/
def currentStart (rs : List (Request env.parser)) (s : Session σ) : ℕ :=
  (streamOf (rs.take s.handled.length)).length

/-- The turn finds the output queue empty and takes the response for done. -/
def TakesForDone (env : SessionEnv σ) (s : Session σ) (t : WriteTurn) : Prop :=
  (∀ w ∈ Nconn.ncWrite (s.outQ.getD (Nbq.init env.bsize)) t.sock,
    w.2.1 = .ok ∧ w.1.readAvail = 0) ∧
  (s.ups = false ∨ t.ups = .done false ∨ t.ups = .done true) ∧ s.rqst.supportsKeepAlives = true

/-- The condition on a turn that reads: it ends at or before the end of the request it is in, the
bases are right if a callback uses them, and if it ends the request, the reads of the request have
cut it so that it does not show. -/
def ReadOk (env : SessionEnv σ) (rs : List (Request env.parser)) (s : Session σ) (t : ReadTurn) :
    Prop :=
  ∀ r ∈ Nconn.ncRead s.inQ s.pending t.sock, r.bytes ≠ [] →
    s.consumed (streamOf rs) + r.bytes.length ≤ s.currentEnd rs ∧
    ((∃ ev ∈ (env.parser.execute s.parser r.bytes).2.1, usesBases s.given.bodyAt ev = true) →
      BasesRight env s r.bytes.length) ∧
    (s.consumed (streamOf rs) + r.bytes.length = s.currentEnd rs →
      ∀ u ∈ rs[s.handled.length]?, CleanAt u.message .rqst (s.given.bufs ++
        [⟨t.layout r.block + r.pos, s.inQ.curWriteOffset,
          s.inQ.curWriteOffset + r.bytes.length⟩]))

/-- The condition on a step: reads as above, and a response is taken for done only between
requests. -/
def DispatchOk (env : SessionEnv σ) (rs : List (Request env.parser)) (s : Session σ) : Act → Prop
  | .read t => ReadOk env rs s t
  | .write t => s.TakesForDone env t → s.consumed (streamOf rs) = s.currentStart rs
  | _ => True

instance (s : Session σ) (t : ReadTurn) : Decidable (ReadOk env rs s t) :=
  inferInstanceAs (Decidable (∀ r ∈ Nconn.ncRead s.inQ s.pending t.sock, r.bytes ≠ [] →
    s.consumed (streamOf rs) + r.bytes.length ≤ s.currentEnd rs ∧
    ((∃ ev ∈ (env.parser.execute s.parser r.bytes).2.1, usesBases s.given.bodyAt ev = true) →
      BasesRight env s r.bytes.length) ∧
    (s.consumed (streamOf rs) + r.bytes.length = s.currentEnd rs →
      ∀ u ∈ rs[s.handled.length]?, CleanAt u.message .rqst (s.given.bufs ++
        [⟨t.layout r.block + r.pos, s.inQ.curWriteOffset,
          s.inQ.curWriteOffset + r.bytes.length⟩]))))

instance (s : Session σ) (t : WriteTurn) : Decidable (s.TakesForDone env t) :=
  inferInstanceAs (Decidable ((∀ w ∈ Nconn.ncWrite (s.outQ.getD (Nbq.init env.bsize)) t.sock,
    w.2.1 = .ok ∧ w.1.readAvail = 0) ∧
  (s.ups = false ∨ t.ups = .done false ∨ t.ups = .done true) ∧ s.rqst.supportsKeepAlives = true))

instance (s : Session σ) : ∀ a, Decidable (DispatchOk env rs s a)
  | .read t => inferInstanceAs (Decidable (ReadOk env rs s t))
  | .write t => inferInstanceAs (Decidable
      (s.TakesForDone env t → s.consumed (streamOf rs) = s.currentStart rs))
  | .respond _ _ => .isTrue trivial
  | .event _ _ => .isTrue trivial
  | .stopped => .isTrue trivial
  | .accept _ _ => .isTrue trivial
  | .top => .isTrue trivial

/-! ## The invariant -/

/-- The session is `n` bytes into a request: they are in the queue, the buffers that were parsed
cover them, and the record is that of the message, parsed in these buffers. -/
structure Into (u : Request env.parser) (n : ℕ) (s : Session σ) : Prop where
  queue : s.inQ.contents = u.bytes.take n
  covers : Covers 0 n s.given.bufs
  record : s.rqst.Alike (s.given.bufs.foldl (execute u.message) (Hmsg.init .rqst))
  body : s.rqst.pBody = s.given.bodyAt

/-- The session is `n` bytes into the first of the requests `us`, and in step with it unless it
is done. -/
structure InStep (env : SessionEnv σ) (us : List (Request env.parser)) (n : ℕ) (s : Session σ) :
    Prop where
  pending : s.pending = (streamOf us).drop n
  within : ∀ u us', us = u :: us' → n < u.bytes.length
  rest : us = [] → n = 0
  sync : s.ncState ≠ .done → s.rqst.complete = false ∧
    ∀ u us', us = u :: us' → s.parser = u.state n ∧ s.Into u n

/-- The invariant: `handle_req` was called for `ds`, `us` are to come. -/
def DispatchInv (env : SessionEnv σ) (rs : List (Request env.parser)) (s : Session σ) : Prop :=
  ∃ ds us n, rs = ds ++ us ∧ List.Forall₂ Dispatched ds s.handled ∧ InStep env us n s

/-! ## Steps -/

section Arithmetic

variable {ds us : List (Request env.parser)} {n : ℕ}

lemma streamOf_append (ds us : List (Request env.parser)) :
    streamOf (ds ++ us) = streamOf ds ++ streamOf us := List.flatMap_append

lemma streamOf_cons (u : Request env.parser) (us : List (Request env.parser)) :
    streamOf (u :: us) = u.bytes ++ streamOf us := List.flatMap_cons

lemma InStep.consumed_eq (hi : InStep env us n s) :
    s.consumed (streamOf (ds ++ us)) = (streamOf ds).length + n := by
  rw [consumed, hi.pending, streamOf_append, List.length_append, List.length_drop]
  cases us with
  | nil =>
      rw [hi.rest rfl]
      omega
  | cons u us =>
      have := hi.within u us rfl
      rw [streamOf_cons, List.length_append]
      omega

lemma currentStart_eq (h : s.handled.length = ds.length) :
    s.currentStart (ds ++ us) = (streamOf ds).length := by
  rw [currentStart, h, List.take_left]

lemma currentEnd_eq (h : s.handled.length = ds.length) (u : Request env.parser) :
    s.currentEnd (ds ++ u :: us) = (streamOf ds).length + u.bytes.length := by
  rw [currentEnd, h, List.take_length_add_append, List.take_succ_cons, List.take_zero,
    streamOf_append, List.length_append, streamOf_cons]
  simp [streamOf]

end Arithmetic

/-- What was read is the next piece of the request. -/
lemma InStep.read {us : List (Request env.parser)} {u : Request env.parser} {n : ℕ}
    {bytes pending : List UInt8} (hi : InStep env (u :: us) n s)
    (hp : s.pending = bytes ++ pending) (hle : n + bytes.length ≤ u.bytes.length) :
    bytes = (u.bytes.drop n).take bytes.length ∧
      pending = (streamOf (u :: us)).drop (n + bytes.length) := by
  have hdrop : s.pending = u.bytes.drop n ++ streamOf us := by
    rw [hi.pending, streamOf_cons, List.drop_append_of_le_length (by omega)]
  constructor
  · have htake : s.pending.take bytes.length = bytes := by
      rw [hp, List.take_left]
    rw [← htake, hdrop, List.take_append_of_le_length (by rw [List.length_drop]; omega),
      List.length_take, List.length_drop, min_eq_left (by omega)]
  · rw [← List.drop_drop, ← hi.pending, hp, List.drop_left]

/-- At the start of a request nothing of it is in the queue, and the record is empty. -/
lemma into_zero (u : Request env.parser) (hparser : s.parser = env.parser.init)
    (hqueue : s.inQ.contents = []) (hgiven : s.given = .empty) {ka : Bool}
    (hrqst : s.rqst = { Hmsg.init .rqst with supportsKeepAlives := ka }) :
    s.parser = u.state 0 ∧ s.Into u 0 := by
  refine ⟨hparser.trans u.state_zero.symm, hqueue, ?_, ?_, ?_⟩
  · rw [hgiven]
    rfl
  · rw [hgiven, hrqst]
    exact ⟨rfl, rfl, rfl, rfl, rfl, rfl⟩
  · rw [hgiven, hrqst]
    rfl

/-- Nothing is dispatched in the middle of a request. -/
lemma DispatchInv.finishRead {t : ReadTurn} (hi : DispatchInv env rs s) (hnd : s.ncState ≠ .done)
    (h : s.finishRead env t = some s') : DispatchInv env rs s' := by
  obtain ⟨ds, us, n, hrs, hh, hstep⟩ := hi
  obtain ⟨out, e, -, h⟩ := finishRead_spec h
  rcases dispatch_spec h with ⟨-, rfl⟩ | ⟨_, _, _, hcomp, -⟩
  · refine ⟨ds, us, n, hrs, hh, hstep.pending, hstep.within, hstep.rest, fun hnd => ?_⟩
    obtain ⟨hcomp, hinto⟩ := hstep.sync hnd
    refine ⟨hcomp, fun u us' hu => ?_⟩
    obtain ⟨h1, h2, h3, h4, h5⟩ := hinto u us' hu
    exact ⟨h1, h2, h3, ⟨h4.type, h4.url, h4.keys, h4.vals, h4.body, h4.headerList⟩, h5⟩
  · have hfalse := (hstep.sync hnd).1
    simp only [hfalse] at hcomp
    cases hcomp

/-- At the end of a request, cut so that it does not show, `handle_req` is called for it, and the
next one starts afresh. -/
lemma dispatch_whole {t : ReadTurn} {ds us : List (Request env.parser)} {u : Request env.parser}
    {a : SeekQueue UInt8} (hrep : Nbq.Rep s.inQ a) (hh : List.Forall₂ Dispatched ds s.handled)
    (hcomp : s.rqst.complete = true) (hinto : s.Into u u.bytes.length)
    (hclean : CleanAt u.message .rqst s.given.bufs) (hpend : s.pending = streamOf us)
    (h : s.finishRead env t = some s') : DispatchInv env (ds ++ u :: us) s' := by
  obtain ⟨out, e, -, h⟩ := finishRead_spec h
  rcases dispatch_spec h with ⟨hfalse, -⟩ | ⟨q, url, ans, -, hurl, -, hs'⟩
  · simp only [hcomp] at hfalse
    cases hfalse
  have hqueue : s.inQ.contents = u.bytes := by rw [hinto.queue, List.take_length]
  have hcontents : a.contents = u.message.bytes := by
    obtain ⟨r, w, -, -, hc, -⟩ := hrep
    exact hc.symm.trans hqueue
  have hdispatched : Dispatched u ⟨{ s.rqst with expect := e }, s.inQ, s.given⟩ := by
    refine ⟨⟨a, hrep, hcontents⟩, ?_⟩
    have hsame : ({ s.rqst with expect := e } : Hmsg).Alike
        (parse u.message .rqst ⟨s.given.bufs, hinto.covers⟩) := by
      have hr := hinto.record
      exact ⟨hr.type, hr.url, hr.keys, hr.vals, hr.body, hr.headerList⟩
    exact (hsame.seen s.inQ).trans ((seen_parse_eq_whole_iff hrep hcontents).mpr hclean)
  have hh' : List.Forall₂ Dispatched (ds ++ [u])
      (s.handled ++ [⟨{ s.rqst with expect := e }, s.inQ, s.given⟩]) :=
    List.rel_append hh (.cons hdispatched .nil)
  have hlen : ∀ v vs, us = v :: vs → 0 < v.bytes.length :=
    fun v _ _ => List.length_pos_iff.mpr v.nonempty
  rcases hs' with rfl | rfl
  · exact ⟨ds ++ [u], us, 0, by simp, hh', hpend, hlen, fun _ => rfl, fun hnd => absurd rfl hnd⟩
  · obtain ⟨a', hrep', -, -⟩ := hrep.getUrl hurl
    refine ⟨ds ++ [u], us, 0, by simp, hh', hpend, hlen, fun _ => rfl,
      fun _ => ⟨rfl, fun v vs _ => into_zero v rfl ?_ rfl rfl⟩⟩
    obtain ⟨r, w, -, -, hc, -⟩ := hrep'.resetWrite
    exact hc

/-- **The parse of a piece** of the request, with right bases, leads further into it. -/
lemma Into.parsed {u : Request env.parser} {n : ℕ} {r : NcRead} {t : ReadTurn} {base : ℤ}
    (hinto : s.Into u n) (hparser : s.parser = u.state n) (hbased : Based env.bsize s.input)
    (hr : Nconn.ncRead s.inQ s.pending t.sock = some r) (hne : r.bytes ≠ [])
    (hbase : bWriteDataPtr t.layout r.q = some base)
    (huse : (∃ ev ∈ (env.parser.execute s.parser r.bytes).2.1,
      usesBases s.given.bodyAt ev = true) → BasesRight env s r.bytes.length)
    (hle : n + r.bytes.length ≤ u.bytes.length)
    (hbytes : r.bytes = (u.bytes.drop n).take r.bytes.length) {s₁ : Session σ}
    (hin : s₁.input = parsedInput env base t.layout s.inQ.curWriteOffset r
      (input { s with inQ := r.q, pending := r.pending })) :
    s₁.Into u (n + r.bytes.length) := by
  obtain ⟨a, hrep⟩ := hbased.rep
  obtain ⟨-, -, -, hrep'⟩ := (hrep.ncRead hr).resolve_left fun hnil => hne hnil.1
  have hpos := List.length_pos_iff.mpr hne
  have hoff : s.inQ.curWriteOffset = n := by
    have hw : s.inQ.curWriteOffset = a.contents.length := hrep.curWriteOffset
    obtain ⟨_, _, -, -, hc, -⟩ := hrep
    rw [hw, ← hc]
    exact (congrArg List.length hinto.queue).trans (by rw [List.length_take]; omega)
  have hright := fun hev => hbased.place hr hne (huse hev) hbase
  have hevents := u.events n r.bytes.length hpos hle
  have hcb := u.message.callbacks_eventsIn (Nat.le_add_right n r.bytes.length)
    (t.layout r.block + r.pos)
  rw [Nat.add_sub_cancel_left, ← hevents, ← filterMap_dataCbOf] at hcb
  have hpiece : (u.message.bytes.drop n).take r.bytes.length = r.bytes := hbytes.symm
  rw [hpiece, ← hparser] at hcb
  rw [hoff] at hright
  have hinQ : s₁.inQ = r.q := congrArg Input.inQ hin
  have hgiven : s₁.given = _ := congrArg Input.given hin
  have hrqst : s₁.rqst = _ := congrArg Input.rqst hin
  simp only [parsedInput, input, foldl_onEventGiven_bufs, hoff] at hgiven
  simp only [parsedInput, input, foldl_onEventGiven_rqst, hoff] at hrqst
  refine ⟨?_, ?_, ?_, ?_⟩
  · obtain ⟨_, _, -, -, hc, -⟩ := hrep
    obtain ⟨_, _, -, -, hc', -⟩ := hrep'
    rw [hinQ, hc', List.take_add, ← hbytes, ← hinto.queue]
    exact congrArg (· ++ r.bytes) hc.symm
  · rw [hgiven]
    exact hinto.covers.concat (Nat.lt_add_of_pos_right hpos)
  · rw [hgiven, hrqst, List.foldl_append, List.foldl_cons, List.foldl_nil]
    have hinto' : ({ s.rqst with curBuf := base } : Hmsg).Alike
        (s.given.bufs.foldl (execute u.message) (Hmsg.init .rqst)) := by
      have hr := hinto.record
      exact ⟨hr.type, hr.url, hr.keys, hr.vals, hr.body, hr.headerList⟩
    have hused : (∃ ev ∈ (env.parser.execute s.parser r.bytes).2.1,
        usesBases s.rqst.pBody ev = true) →
          t.layout r.block + r.pos - base + s.rqst.curOff = n := by
      rintro ⟨ev, hev, huse⟩
      exact hright ⟨ev, hev, hinto.body ▸ huse⟩
    have hnext := hinto'.execute ⟨rfl, rfl⟩ hcb hused
    exact ⟨hnext.type, hnext.url, hnext.keys, hnext.vals, hnext.body, hnext.headerList⟩
  · rw [hgiven, hrqst]
    have hfits := u.message.fits
    refine foldl_onEvent_body hinto.body hright ?_ ?_
    · exact Nat.lt_of_le_of_lt hle hfits
    · intro k off len hm
      have hmem : .data k off len ∈ u.message.eventsIn n (n + r.bytes.length) 0 := by
        rw [← hevents, hpiece, ← hparser]
        exact List.mem_filter.mpr ⟨hm, rfl⟩
      have := eventsIn_inBounds (Nat.le_add_right n r.bytes.length) hmem
      omega

/-- **A read that ends at or before the end of the request.** -/
lemma DispatchInv.readTurn {t : ReadTurn} (hi : DispatchInv env rs s)
    (hbased : Based env.bsize s.input) (hconn : s.ncState = .connected) (hok : ReadOk env rs s t)
    (h : s.readTurn env t = some s') : DispatchInv env rs s' := by
  obtain ⟨ds, us, n, rfl, hh, hstep⟩ := hi
  obtain ⟨a, hrep⟩ := hbased.rep
  have hnd : s.ncState ≠ .done := by rw [hconn]; decide
  have hlen : s.handled.length = ds.length := hh.length_eq.symm
  obtain ⟨r, hr, hcases⟩ := readTurn_spec h
  rcases hrep.ncRead hr with ⟨hnil, hpend, hrep'⟩ | ⟨hst, hne, hpend, hrep'⟩
  · -- nothing was read
    have hstep' : ∀ c (m : NcState), InStep env us n
        { s with inQ := r.q, pending := r.pending, ncState := m, call := c } := by
      refine fun c m => ⟨hpend.trans hstep.pending, hstep.within, hstep.rest, fun _ => ?_⟩
      obtain ⟨hcomp, hinto⟩ := hstep.sync hnd
      refine ⟨hcomp, fun u us' hu => ?_⟩
      obtain ⟨h1, h2, h3, h4, h5⟩ := hinto u us' hu
      obtain ⟨_, _, -, -, hc, -⟩ := hrep
      obtain ⟨_, _, -, -, hc', -⟩ := hrep'
      exact ⟨h1, (hc'.trans hc.symm).trans h2, h3, h4, h5⟩
    rcases hcases with ⟨-, m, c, rfl⟩ | ⟨-, -, hfin⟩ | ⟨-, hne, -⟩
    · exact ⟨ds, us, n, rfl, hh, hstep' c m⟩
    · refine DispatchInv.finishRead ?_ ?_ hfin
      · exact ⟨ds, us, n, rfl, hh, hstep' s.call s.ncState⟩
      · exact hnd
    · exact absurd hnil hne
  rcases hcases with ⟨hst', -⟩ | ⟨-, hnil, -⟩ | ⟨-, -, s₁, parsed, hparse, hrest⟩
  · exact absurd hst hst'
  · exact absurd hnil hne
  obtain ⟨hle, huse, hclean⟩ := hok r hr hne
  rw [hstep.consumed_eq] at hle hclean
  cases us with
  | nil =>
      have hz := hstep.pending
      rw [hpend] at hz
      simp only [streamOf, List.flatMap_nil, List.drop_nil, List.append_eq_nil_iff] at hz
      exact absurd hz.1 hne
  | cons u us =>
      have hn := hstep.within u us rfl
      obtain ⟨hcomp, hsync⟩ := hstep.sync hnd
      obtain ⟨hparser, hinto⟩ := hsync u us rfl
      rw [currentEnd_eq hlen] at hle hclean
      obtain ⟨hbytes, hpend'⟩ := hstep.read hpend (by omega)
      have hcut := u.cut n r.bytes.length (List.length_pos_iff.mpr hne)
        (show n + r.bytes.length ≤ u.bytes.length by omega)
      have hpiece : (u.message.bytes.drop n).take r.bytes.length = r.bytes := hbytes.symm
      rw [hpiece, ← hparser] at hcut
      obtain ⟨hall, -, hmid, hend⟩ := hcut
      obtain ⟨base, hbase, hparsed, hin, hs₁⟩ := parseRead_spec hparse
      have hrqst : s₁.rqst.complete = _ := congrArg (fun i => i.rqst.complete) hin
      have hparser₁ : s₁.parser = _ := congrArg Input.parser hin
      have hpend₁ : s₁.pending = r.pending := congrArg Input.pending hin
      have hhandled : s₁.handled = s.handled := congrArg Input.handled hin
      have hinQ : s₁.inQ = r.q := congrArg Input.inQ hin
      have hgiven : s₁.given.bufs = _ := congrArg (fun i => i.given.bufs) hin
      have hnc : s₁.ncState = s.ncState := by rw [hs₁]
      simp only [parsedInput, input, foldl_onEventGiven_rqst, foldl_onEvent_complete,
        foldl_onEventGiven_bufs, hcomp, Bool.false_or] at hrqst hparser₁ hgiven
      have hfin : s₁.finishRead env t = some s' := by
        rcases hrest with ⟨hlt, -⟩ | ⟨-, hfin⟩
        · rw [hparsed] at hlt
          exact absurd hlt (by rw [hall]; exact Nat.lt_irrefl _)
        · exact hfin
      have hinto₁ := hinto.parsed hparser hbased hr hne hbase huse (by omega) hbytes hin
      rcases Nat.lt_or_eq_of_le (show n + r.bytes.length ≤ u.bytes.length by omega) with hlt | heq
      · -- in the middle of the request
        obtain ⟨hstate, hends⟩ := hmid (decide_eq_false hlt.ne)
        rw [hends] at hrqst
        refine DispatchInv.finishRead ?_ (by rw [hnc]; exact hnd) hfin
        refine ⟨ds, u :: us, n + r.bytes.length, rfl, hhandled ▸ hh, hpend₁.trans hpend', ?_,
          by simp, fun _ => ⟨hrqst, ?_⟩⟩
        · intro v vs he
          obtain ⟨rfl, -⟩ := List.cons.inj he
          exact hlt
        · intro v vs he
          obtain ⟨rfl, -⟩ := List.cons.inj he
          exact ⟨hparser₁.trans hstate, hinto₁⟩
      · -- at its end
        rw [hend (decide_eq_true heq)] at hrqst
        rw [heq] at hinto₁ hpend'
        refine dispatch_whole (hinQ ▸ hrep') (hhandled ▸ hh) hrqst hinto₁ ?_ ?_ hfin
        · rw [hgiven]
          refine hclean (by omega) u ?_
          rw [hlen, List.getElem?_append_right (le_refl _), Nat.sub_self]
          rfl
        · rw [hpend₁, hpend', streamOf_cons, List.drop_left]

/-- **A response that is done between requests.** -/
lemma DispatchInv.writeTurn {t : WriteTurn} (hi : DispatchInv env rs s)
    (hconn : s.ncState = .connected) (hok : DispatchOk env rs s (.write t))
    (h : s.writeTurn env t = some s') : DispatchInv env rs s' := by
  obtain ⟨ds, us, n, rfl, hh, hstep⟩ := hi
  have hnd : s.ncState ≠ .done := by rw [hconn]; decide
  have hlen : s.handled.length = ds.length := hh.length_eq.symm
  have hsame : ∀ {s₁ : Session σ}, s₁.input = s.input → InStep env us n s₁ := by
    intro s₁ hin
    have hrqst : s₁.rqst = s.rqst := congrArg Input.rqst hin
    have hgiven : s₁.given = s.given := congrArg Input.given hin
    have hinQ : s₁.inQ = s.inQ := congrArg Input.inQ hin
    have hparser : s₁.parser = s.parser := congrArg Input.parser hin
    refine ⟨(congrArg Input.pending hin).trans hstep.pending, hstep.within, hstep.rest, fun _ => ?_⟩
    obtain ⟨hcomp, hinto⟩ := hstep.sync hnd
    refine ⟨hrqst ▸ hcomp, fun u us' hu => ?_⟩
    obtain ⟨h1, h2, h3, h4, h5⟩ := hinto u us' hu
    exact ⟨hparser.trans h1, by rw [hinQ, h2], by rw [hgiven]; exact h3,
      by rw [hgiven, hrqst]; exact h4, by rw [hgiven, hrqst, h5]⟩
  obtain ⟨q, st, out, hw, hcases⟩ := writeTurn_spec h
  rcases hcases with ⟨m, c, rfl⟩ | ⟨hst, hz, shutdown, u, -, hups, rfl⟩ | ⟨-, xs, q', m, -, rfl⟩
  · exact ⟨ds, us, n, rfl, hh, hsame rfl⟩
  · rcases respDone_spec env shutdown q { s with outQ := some q, sent := s.sent ++ out, ups := u }
      with he | ⟨hka, he⟩
    · rw [he]
      exact ⟨ds, us, n, rfl, hh, hstep.pending, hstep.within, hstep.rest,
        fun hd => absurd rfl hd⟩
    · have hdone : s.TakesForDone env t := by
        refine ⟨?_, hups.imp id fun h => by cases shutdown <;> simp [h], hka⟩
        intro w hw'
        obtain rfl := Option.some.inj (hw.symm.trans hw')
        exact ⟨hst, hz⟩
      have hn : n = 0 := by
        have hboundary := hok hdone
        rw [hstep.consumed_eq, currentStart_eq hlen] at hboundary
        omega
      subst hn
      rw [he]
      refine ⟨ds, us, 0, rfl, hh, hstep.pending, hstep.within, hstep.rest,
        fun _ => ⟨rfl, fun v vs hv => into_zero v rfl ?_ rfl rfl⟩⟩
      exact ((hstep.sync hnd).2 v vs hv).2.queue
  · exact ⟨ds, us, n, rfl, hh, hsame rfl⟩

lemma DispatchInv.step {a : Act} (hi : DispatchInv env rs s) (hbased : BasedUnlessDone env s)
    (hok : DispatchOk env rs s a) (h : s.step env a = some s') : DispatchInv env rs s' := by
  rcases step_cases h with ⟨m, c, g, hd, rfl⟩ | ⟨i, r, rfl, -, hq⟩ | ⟨t, rfl, hc, hr⟩ |
    ⟨t, rfl, hc, hw⟩
  · obtain ⟨ds, us, n, hrs, hh, hstep⟩ := hi
    refine ⟨ds, us, n, hrs, hh, hstep.pending, hstep.within, hstep.rest, fun hnd => ?_⟩
    obtain ⟨hcomp, hinto⟩ := hstep.sync fun h => hnd (hd h)
    refine ⟨hcomp, fun u us' hu => ?_⟩
    obtain ⟨h1, h2, h3, h4, h5⟩ := hinto u us' hu
    exact ⟨h1, h2, h3, h4, h5⟩
  · obtain ⟨q, -, rfl⟩ := queueApiResp_spec hq
    obtain ⟨ds, us, n, hrs, hh, hstep⟩ := hi
    refine ⟨ds, us, n, hrs, hh, hstep.pending, hstep.within, hstep.rest, fun hnd => ?_⟩
    obtain ⟨hcomp, hinto⟩ := hstep.sync hnd
    refine ⟨hcomp, fun u us' hu => ?_⟩
    obtain ⟨h1, h2, h3, h4, h5⟩ := hinto u us' hu
    exact ⟨h1, h2, h3, h4, h5⟩
  · exact hi.readTurn (hbased (by rw [hc]; decide)) hc hok hr
  · exact hi.writeTurn hc hok hw

/-- The invariant holds in every run that meets the condition. -/
lemma dispatchInv_of_reachable (h0 : 0 < env.bsize) (hb : env.bsize < 2 ^ 31)
    (h : ((machine env (streamOf rs)).guarded (DispatchOk env rs)).Reachable s) :
    DispatchInv env rs s := by
  have hi : BasedUnlessDone env s ∧ DispatchInv env rs s := by
    refine h.invariant (P := fun s => BasedUnlessDone env s ∧ DispatchInv env rs s) ?_ ?_
    · rintro s rfl
      refine ⟨based_of_reachable h0 hb (.start rfl), [], rs, 0, rfl, .nil, rfl, ?_, fun _ => rfl,
        fun _ => ⟨rfl, fun u us _ => into_zero u rfl rfl rfl rfl⟩⟩
      exact fun u us _ => List.length_pos_iff.mpr u.nonempty
    · rintro s a t ⟨hbased, hs⟩ ⟨hok, hst⟩
      exact ⟨hbased.step hst, hs.step hbased hok hst⟩
  exact hi.2

/-- What was handled, and what is still to be read. -/
lemma DispatchInv.handled (hi : DispatchInv env rs s) :
    (∃ ds us x, rs = ds ++ us ∧ streamOf rs = streamOf ds ++ x ++ s.pending ∧
      List.Forall₂ Dispatched ds s.handled ∧ ∀ u us', us = u :: us' → x.length < u.bytes.length) ∧
    (s.pending = [] → List.Forall₂ Dispatched rs s.handled) := by
  obtain ⟨ds, us, n, rfl, hh, hstep⟩ := hi
  constructor
  · refine ⟨ds, us, (streamOf us).take n, rfl, ?_, hh, ?_⟩
    · rw [streamOf_append, hstep.pending, List.append_assoc, List.take_append_drop]
    · intro u us' hu
      have := hstep.within u us' hu
      rw [List.length_take]
      omega
  · intro hnil
    cases us with
    | nil => rwa [List.append_nil]
    | cons u us =>
        have hlt := hstep.within u us rfl
        have hz := congrArg List.length hstep.pending
        rw [hnil, List.length_drop, streamOf_cons, List.length_append, List.length_nil] at hz
        omega

end Session

/-- **Dispatch.**  For every stream of well-formed requests and every run that meets the condition,
the requests that `handle_req` was called for are exactly the first ones, each once and in order,
and what was read beyond them is less than a request; when the stream is read, they are all
requests. -/
theorem dispatched_in_order {σ : Type} (env : SessionEnv σ) (h0 : 0 < env.bsize)
    (hb : env.bsize < 2 ^ 31) (rs : List (Request env.parser)) (s : Session σ)
    (h : ((Session.machine env (streamOf rs)).guarded (Session.DispatchOk env rs)).Reachable s) :
    (∃ ds us x, rs = ds ++ us ∧ streamOf rs = streamOf ds ++ x ++ s.pending ∧
      List.Forall₂ Dispatched ds s.handled ∧ ∀ u us', us = u :: us' → x.length < u.bytes.length) ∧
    (s.pending = [] → List.Forall₂ Dispatched rs s.handled) :=
  (Session.dispatchInv_of_reachable h0 hb h).handled

/-! ## Runs -/

lemma getAb_cut {n k : ℕ} (hk : 0 < k) (hle : n + k ≤ getAb.bytes.length) :
    ReportsPiece (getAbEnv.parser.execute n ((getAb.bytes.drop n).take k))
      ((getAb.bytes.drop n).take k)
      ((getAb.eventsIn 0 n 0).flatMap (elementsOf getAb.bytes))
      ((getAb.eventsIn 0 (n + k) 0).flatMap (elementsOf getAb.bytes)) (n + k)
      (n + k = getAb.bytes.length) := by
  have hall : ∀ n < 30, ∀ k < 30, 0 < k → n + k ≤ getAb.bytes.length →
      ReportsPiece (getAbEnv.parser.execute n ((getAb.bytes.drop n).take k))
        ((getAb.bytes.drop n).take k)
        ((getAb.eventsIn 0 n 0).flatMap (elementsOf getAb.bytes))
        ((getAb.eventsIn 0 (n + k) 0).flatMap (elementsOf getAb.bytes)) (n + k)
        (n + k = getAb.bytes.length) := by
    decide +kernel
  have hlen : getAb.bytes.length = 29 := rfl
  exact hall n (by omega) k (by omega) hk hle

lemma getAb_events {n k : ℕ} (hk : 0 < k) (hle : n + k ≤ getAb.bytes.length) :
    (getAbEnv.parser.execute n ((getAb.bytes.drop n).take k)).2.1.filter isData =
      getAb.eventsIn n (n + k) 0 := by
  have hall : ∀ n < 30, ∀ k < 30, 0 < k → n + k ≤ getAb.bytes.length →
      (getAbEnv.parser.execute n ((getAb.bytes.drop n).take k)).2.1.filter isData =
        getAb.eventsIn n (n + k) 0 := by
    decide +kernel
  have hlen : getAb.bytes.length = 29 := rfl
  exact hall n (by omega) k (by omega) hk hle

/-- `GET /ab` as a request for its parser. -/
def getAbRequest : Request getAbEnv.parser where
  message := getAb
  nonempty := by decide
  state n := n
  reported n := (getAb.eventsIn 0 n 0).flatMap (elementsOf getAb.bytes)
  state_zero := rfl
  reported_zero := by decide
  cut _ _ := getAb_cut
  events _ _ := getAb_events

/-- A read of up to `k` bytes; a request that is complete is answered later. -/
def readUpTo (k : ℕ) : Session.Act := .read ⟨.data k, fun i => 4096 * i, .accept 0, .deferred⟩

/-- Two requests, the first one in two reads; between them a response is done. -/
theorem dispatched_in_order_getAb : ∃ s : Session ℕ,
    ((Session.machine getAbEnv (streamOf [getAbRequest, getAbRequest])).guarded
      (Session.DispatchOk getAbEnv [getAbRequest, getAbRequest])).Reachable s ∧ s.pending = [] ∧
    List.Forall₂ Dispatched [getAbRequest, getAbRequest] s.handled := by
  have hrun : ([Session.Act.event .read false, .accept .ok false, readUpTo 10, readUpTo 19,
        readUpTo 0, .event .write false, .write ⟨.accept 0, .ahead []⟩,
        .event .read false, readUpTo 29, readUpTo 0].foldlM
      (fun s a => if Session.DispatchOk getAbEnv [getAbRequest, getAbRequest] s a then
        Session.step getAbEnv s a else none)
      (Session.start getAbEnv (streamOf [getAbRequest, getAbRequest]))).map (·.pending)
      = some [] := by decide +kernel
  obtain ⟨s, hs, hh⟩ := Option.map_eq_some_iff.mp hrun
  have hreach : ((Session.machine getAbEnv (streamOf [getAbRequest, getAbRequest])).guarded
      (Session.DispatchOk getAbEnv [getAbRequest, getAbRequest])).Reachable s :=
    .guarded_foldlM (fun _ _ _ he => he) rfl hs
  exact ⟨s, hreach, hh, (dispatched_in_order getAbEnv (by decide) (by decide) _ s hreach).2 hh⟩

/-- Two requests in one read are dispatched as one: `handle_req` is called once, with the headers of
both. -/
theorem pipelined_requests_merge : ∃ s : Session ℕ,
    (Session.machine getAbEnv (streamOf [getAbRequest, getAbRequest])).Reachable s ∧
    s.pending = [] ∧
    s.handled.map (fun x => x.rqst.seen x.inQ) = [some ⟨[47, 97, 98],
      [([72, 111, 115, 116], [120]), ([72, 111, 115, 116], [120])], ⟨0, 0⟩⟩] ∧
    ¬ List.Forall₂ Dispatched [getAbRequest, getAbRequest] s.handled := by
  have hrun : ([Session.Act.event .read false, .accept .ok false, readUpTo 58, readUpTo 0].foldlM
      (fun s a => Session.step getAbEnv s a)
      (Session.start getAbEnv (streamOf [getAbRequest, getAbRequest]))).map
        (fun s => (s.pending, s.handled.map fun x => x.rqst.seen x.inQ))
      = some ([], [some ⟨[47, 97, 98],
        [([72, 111, 115, 116], [120]), ([72, 111, 115, 116], [120])], ⟨0, 0⟩⟩]) := by
    decide +kernel
  obtain ⟨s, hs, hh⟩ := Option.map_eq_some_iff.mp hrun
  obtain ⟨hpend, hhandled⟩ := Prod.mk.inj hh
  refine ⟨s, .foldlM (fun s a t he => he) (.start rfl) hs, hpend, hhandled, fun hall => ?_⟩
  have hlen := congrArg List.length hhandled
  rw [List.length_map, ← hall.length_eq] at hlen
  simp at hlen

end Is2
