import Is2.Srvr.RqstMessage

/-!
# Dispatch with the parser

`Dispatch` is about any parser that reports a request piece by piece.  With `http_parser_execute`
in its place the result is one on bytes: what is dispatched are the requests that the parser takes
alone, each with the record that one call makes of it.
-/

namespace Is2

namespace Http

/-- The bytes of a request that is parsed alone. -/
abbrev RqstText := { bytes : Bytes // ParsedAlone bytes }

/-- A pipeline of requests. -/
def pipeline (rs : List RqstText) : Bytes := rs.flatMap (·.1)

def requestsOf (rs : List RqstText) : List (Request rqstParser) := rs.map fun r => r.2.request

/-- `handle_req` is called for the request: the queue holds its bytes, and the getters give what
they give of the record that one call of `http_parser_execute` makes of all of it. -/
structure RqstText.Dispatched (r : RqstText) (x : Handled) : Prop where
  queue : x.inQ.contents = r.1
  seen : x.rqst.seen x.inQ = (parseRqst r.1 [⟨0, 0, r.1.length⟩]).seen x.inQ

/-- The server, with `http_parser` for its requests. -/
abbrev rqstEnv (urls : UrlParser) (codes : ℕ → Option Bytes) (badRequest : Bool → ApiResp)
    (bsize : ℕ) : SessionEnv Parser :=
  ⟨rqstParser, urls, codes, badRequest, bsize⟩

lemma streamOf_requestsOf (rs : List RqstText) : streamOf (requestsOf rs) = pipeline rs := by
  rw [streamOf, requestsOf, List.flatMap_map]
  rfl

/-- What a request of the session shows is what one call of the parser records. -/
lemma RqstText.dispatched {r : RqstText} {x : Handled} (h : Is2.Dispatched r.2.request x) :
    r.Dispatched x := by
  obtain ⟨a, hrep, hc⟩ := h.queue
  have hpos := List.length_pos_of_ne_nil r.2.nonempty
  have hcovers : Covers 0 r.1.length [⟨0, 0, r.1.length⟩] := ⟨rfl, hpos, rfl⟩
  have hone : (parseRqst r.1 [⟨0, 0, r.1.length⟩]).Alike
      (parse r.2.message .rqst ⟨[⟨0, 0, r.1.length⟩], hcovers⟩) := by
    rw [parseRqst, show rqstParser.init = stateAt r.1 0 from rfl,
      r.2.foldl_executeBuf hcovers hpos]
    exact ⟨rfl, rfl, rfl, rfl, rfl, rfl⟩
  refine ⟨?_, ?_⟩
  · obtain ⟨_, _, -, -, hq, -⟩ := hrep
    exact hq.trans hc
  · have hwhole : (parse r.2.message .rqst ⟨[⟨0, 0, r.1.length⟩], hcovers⟩).seen x.inQ =
        some (r.2.message.whole .rqst) :=
      (seen_parse_eq_whole_iff hrep hc).mpr (cleanAt_one _ _ _ _)
    rw [hone.seen, hwhole]
    exact h.seen

/-- **Dispatch of what is parsed.**  On a pipeline of requests, and in a run that meets the
condition, `handle_req` is called for the first requests, each once, in order, with what one call of
the parser records of it; what was read beyond is less than a request; and when all is read, it was
called for all of them. -/
theorem parsed_dispatched (urls : UrlParser) (codes : ℕ → Option Bytes)
    (badRequest : Bool → ApiResp) {bsize : ℕ} (h0 : 0 < bsize) (hb : bsize < 2 ^ 31)
    (rs : List RqstText) {s : Session Parser}
    (h : ((Session.machine (rqstEnv urls codes badRequest bsize) (pipeline rs)).guarded
      (Session.DispatchOk (rqstEnv urls codes badRequest bsize) (requestsOf rs))).Reachable s) :
    (∃ ds us x, rs = ds ++ us ∧ pipeline rs = pipeline ds ++ x ++ s.pending ∧
      List.Forall₂ RqstText.Dispatched ds s.handled ∧
      ∀ u us', us = u :: us' → x.length < u.1.length) ∧
    (s.pending = [] → List.Forall₂ RqstText.Dispatched rs s.handled) := by
  rw [← streamOf_requestsOf] at h
  have hi : Session.DispatchInv (rqstEnv urls codes badRequest bsize) (requestsOf rs) s :=
    Session.dispatchInv_of_reachable (show 0 < (rqstEnv urls codes badRequest bsize).bsize from h0)
      hb h
  have hall : ∀ ds : List RqstText, List.Forall₂ Dispatched (requestsOf ds) s.handled →
      List.Forall₂ RqstText.Dispatched ds s.handled := fun ds hds =>
    (List.forall₂_map_left_iff.mp hds).imp fun _ _ => RqstText.dispatched
  obtain ⟨⟨ds, us, x, hrs, hstream, hhandled, hx⟩, hdone⟩ := hi.handled
  refine ⟨?_, fun hnil => hall rs (hdone hnil)⟩
  obtain ⟨ds', us', rfl, rfl, rfl⟩ := List.map_eq_append_iff.mp hrs
  refine ⟨ds', us', x, rfl, ?_, hall ds' hhandled, ?_⟩
  · rw [← streamOf_requestsOf, ← streamOf_requestsOf]
    exact hstream
  · rintro u us rfl
    exact hx _ _ rfl

/-- A server with blocks of 64 bytes, where `/a` is a URL. -/
abbrev postEnv : SessionEnv Parser :=
  rqstEnv (.ofTable [(ascii "/a", fun k => if k = .path then ⟨0, 2⟩ else ⟨0, 0⟩)]
    (by decide +kernel))
    (fun _ => none) (fun _ => ⟨400, [], none⟩) 64

/-- A request with a body, in two reads. -/
theorem parsed_dispatched_post : ∃ s : Session Parser,
    ((Session.machine postEnv (pipeline [⟨postOk, postOk_alone⟩])).guarded
      (Session.DispatchOk postEnv (requestsOf [⟨postOk, postOk_alone⟩]))).Reachable s ∧
    s.pending = [] ∧ List.Forall₂ RqstText.Dispatched [⟨postOk, postOk_alone⟩] s.handled := by
  have hrun : ([Session.Act.event .read false, .accept .ok false, readUpTo 10, readUpTo 64,
        readUpTo 0].foldlM
      (fun s a => if Session.DispatchOk postEnv (requestsOf [⟨postOk, postOk_alone⟩]) s a then
        Session.step postEnv s a else none)
      (Session.start postEnv (pipeline [⟨postOk, postOk_alone⟩]))).map (·.pending)
      = some [] := by decide +kernel
  obtain ⟨s, hs, hh⟩ := Option.map_eq_some_iff.mp hrun
  have hreach : ((Session.machine postEnv (pipeline [⟨postOk, postOk_alone⟩])).guarded
      (Session.DispatchOk postEnv (requestsOf [⟨postOk, postOk_alone⟩]))).Reachable s :=
    .guarded_foldlM (fun _ _ _ he => he) rfl hs
  exact ⟨s, hreach, hh, (parsed_dispatched _ _ _ (by decide) (by decide) _ hreach).2 hh⟩

end Http

end Is2
