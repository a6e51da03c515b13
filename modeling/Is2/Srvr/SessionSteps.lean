import Is2.Srvr.Session

/-!
# What the parts of a turn can do to a session

One lemma for each function of the session, saying which members it can change and how.  The
invariants of the session are derived from these, and no later proof opens the functions.
-/

namespace Is2

namespace Session

variable {σ : Type} {env : SessionEnv σ} {s s' : Session σ}

/-- A response only touches the output queue. -/
lemma queueApiResp_spec {i : ℕ} {r : ApiResp} (h : s.queueApiResp env i r = some s') :
    ∃ q, r.serialize env.codes (s.outQ.getD (Nbq.init env.bsize)) = some q ∧
      s' = { s with outQ := some q, responses := s.responses ++ [⟨i, r.bytes env.codes⟩] } := by
  obtain ⟨q, hq, he⟩ := Option.bind_eq_some_iff.mp h
  exact ⟨q, hq, (Option.some.inj he).symm⟩

/-- The output side of the session: what answering works on. -/
structure Replies where
  outQ : Option Nbq
  ups : Bool
  deferred : List ℕ
  responses : List Response

def replies (s : Session σ) : Replies := ⟨s.outQ, s.ups, s.deferred, s.responses⟩

/-- How the output side can change in `handle_req`: not at all, by the upstream object the answer is
left to, by the response that is queued, or by the answer that is still to come. -/
inductive Answered (env : SessionEnv σ) (s : Session σ) : Answer → Replies → Prop where
  | none (a : Answer) : Answered env s a s.replies
  | upstream : Answered env s .upstream { s.replies with ups := true }
  | deferred :
      Answered env s .deferred { s.replies with deferred := s.deferred ++ [s.handled.length] }
  | resp {r : ApiResp} {q : Nbq} :
      r.serialize env.codes (s.outQ.getD (Nbq.init env.bsize)) = some q →
      Answered env s (.resp r) { s.replies with
        outQ := some q, responses := s.responses ++ [⟨s.handled.length, r.bytes env.codes⟩] }

/-- The session with a request logged, the queue its URL was copied from, and its output side. -/
def logged (s : Session σ) (q : Nbq) (out : Replies) : Session σ :=
  { s with
    handled := s.handled ++ [⟨s.rqst, s.inQ, s.given⟩]
    inQ := q, outQ := out.outQ, ups := out.ups, deferred := out.deferred
    responses := out.responses }

/-- `handle_req` logs what it finds, copies the URL and answers. -/
lemma handleReq_spec {a : Answer} {ok : Bool} (h : s.handleReq env a = some (s', ok)) :
    ∃ q url out, s.rqst.getUrl s.inQ = some (q, url) ∧ Answered env s a out ∧
      s' = s.logged q out := by
  obtain ⟨⟨s₁, found⟩, h₁, h⟩ := Option.bind_eq_some_iff.mp h
  obtain ⟨⟨q, url⟩, hurl, he⟩ := Option.bind_eq_some_iff.mp h₁
  obtain ⟨rfl, rfl⟩ := Prod.mk.inj (Option.some.inj he)
  simp only at h
  split_ifs at h with hfound
  · obtain ⟨rfl, -⟩ := Prod.mk.inj (Option.some.inj h)
    exact ⟨q, url, _, hurl, .none a, rfl⟩
  cases a with
  | resp r =>
      obtain ⟨s₂, h₂, he⟩ := Option.bind_eq_some_iff.mp h
      obtain ⟨rfl, -⟩ := Prod.mk.inj (Option.some.inj he)
      obtain ⟨q', hq', rfl⟩ := queueApiResp_spec h₂
      exact ⟨q, url, _, hurl, .resp hq', rfl⟩
  | upstream =>
      obtain ⟨rfl, -⟩ := Prod.mk.inj (Option.some.inj h)
      exact ⟨q, url, _, hurl, .upstream, rfl⟩
  | deferred =>
      obtain ⟨rfl, -⟩ := Prod.mk.inj (Option.some.inj h)
      exact ⟨q, url, _, hurl, .deferred, rfl⟩
  | failed =>
      obtain ⟨rfl, -⟩ := Prod.mk.inj (Option.some.inj h)
      exact ⟨q, url, _, hurl, .none _, rfl⟩

/-- The interim response goes to the socket without passing the output queue. -/
lemma sendExpect_spec {sock : SockWrite} (h : s.sendExpect sock = some s') :
    ∃ out e, (s.rqst.expect = false → out = []) ∧
      s' = { s with sent := s.sent ++ out, rqst := { s.rqst with expect := e } } := by
  unfold sendExpect at h
  split_ifs at h with hexp
  · obtain ⟨⟨q, n⟩, -, h⟩ := Option.bind_eq_some_iff.mp h
    obtain ⟨⟨q', st, out⟩, -, he⟩ := Option.bind_eq_some_iff.mp h
    exact ⟨out, false, fun hf => by rw [hf] at hexp; simp at hexp, (Option.some.inj he).symm⟩
  · obtain rfl := Option.some.inj h
    exact ⟨[], s.rqst.expect, fun _ => rfl, by simp⟩

/-- A complete request is handled; then the session is done or ready for the next request. -/
lemma dispatch_spec {a : Answer} (h : s.dispatch env a = some s') :
    (s.rqst.complete = false ∧ s' = s) ∨
    ∃ q url out, s.rqst.complete = true ∧ s.rqst.getUrl s.inQ = some (q, url) ∧
      Answered env s a out ∧
      (s' = { s.logged q out with ncState := .done } ∨
        s' = { s.logged q.resetWrite out with
          rqst := { Hmsg.init .rqst with supportsKeepAlives := s.rqst.supportsKeepAlives }
          parser := env.parser.init, given := .empty }) := by
  unfold dispatch at h
  split_ifs at h with hcomp
  · right
    obtain ⟨⟨s₁, ok⟩, h₁, h⟩ := Option.bind_eq_some_iff.mp h
    obtain ⟨q, url, out, hurl, hans, rfl⟩ := handleReq_spec h₁
    refine ⟨q, url, out, hcomp, hurl, hans, ?_⟩
    cases ok with
    | false => exact Or.inl (Option.some.inj h).symm
    | true => exact Or.inr (Option.some.inj h).symm
  · left
    obtain rfl := Option.some.inj h
    exact ⟨by simpa using hcomp, rfl⟩

/-- The input side of the session: what reading, parsing and dispatching work on. -/
structure Input (σ : Type) where
  inQ : Nbq
  rqst : Hmsg
  parser : σ
  pending : List UInt8
  given : Given
  handled : List Handled

def input (s : Session σ) : Input σ := ⟨s.inQ, s.rqst, s.parser, s.pending, s.given, s.handled⟩

/-- The input side after the parse of what was read. -/
def parsedInput (env : SessionEnv σ) (base : ℤ) (layout : ℕ → ℤ) (off : ℕ) (r : NcRead)
    (i : Input σ) : Input σ :=
  let out := env.parser.execute i.parser r.bytes
  let buf := layout r.block + r.pos
  let hg := out.2.1.foldl (onEventGiven buf off r.bytes) ({ i.rqst with curBuf := base }, i.given)
  { inQ := r.q, rqst := { hg.1 with curOff := off }, parser := out.1, pending := r.pending
    given := { hg.2 with bufs := hg.2.bufs ++ [⟨buf, off, off + r.bytes.length⟩] }
    handled := i.handled }

lemma parseRead_spec {layout : ℕ → ℤ} {off parsed : ℕ} {r : NcRead}
    (h : s.parseRead env layout off r = some (s', parsed)) :
    ∃ base, bWriteDataPtr layout r.q = some base ∧
      parsed = (env.parser.execute s.parser r.bytes).2.2 ∧
      s'.input = parsedInput env base layout off r s.input ∧
      s' = { s with
        inQ := s'.inQ, rqst := s'.rqst, parser := s'.parser, pending := s'.pending,
        given := s'.given } := by
  obtain ⟨base, hbase, he⟩ := Option.bind_eq_some_iff.mp h
  obtain ⟨rfl, rfl⟩ := Prod.mk.inj (Option.some.inj he)
  exact ⟨base, hbase, rfl, rfl, rfl⟩

/-- What is left after the parse. -/
lemma finishRead_spec {t : ReadTurn} (h : s.finishRead env t = some s') :
    ∃ out e, (s.rqst.expect = false → out = []) ∧
      dispatch env t.answer
        { s with sent := s.sent ++ out, rqst := { s.rqst with expect := e } } = some s' := by
  obtain ⟨s₁, h₁, h⟩ := Option.bind_eq_some_iff.mp h
  obtain ⟨out, e, hout, rfl⟩ := sendExpect_spec h₁
  exact ⟨out, e, hout, h⟩

/-- A turn that reads: nothing was read, or what was read is parsed and then answered or
refused. -/
lemma readTurn_spec {t : ReadTurn} (h : s.readTurn env t = some s') :
    ∃ r, Nconn.ncRead s.inQ s.pending t.sock = some r ∧
      ((r.status ≠ .ok ∧
          ∃ n c, s' = { s with inQ := r.q, pending := r.pending, ncState := n, call := c }) ∨
        (r.status = .ok ∧ r.bytes = [] ∧
          finishRead env t { s with inQ := r.q, pending := r.pending } = some s') ∨
        (r.status = .ok ∧ r.bytes ≠ [] ∧ ∃ s₁ parsed,
          parseRead env t.layout s.inQ.curWriteOffset r
            { s with inQ := r.q, pending := r.pending } = some (s₁, parsed) ∧
          ((parsed < r.bytes.length ∧ ∃ s₂,
              s₁.queueApiResp env s₁.handled.length
                (env.badRequest s₁.rqst.supportsKeepAlives) = some s₂ ∧
              s' = s₂.ret) ∨
            (r.bytes.length ≤ parsed ∧ s₁.finishRead env t = some s')))) := by
  obtain ⟨r, hr, h⟩ := Option.bind_eq_some_iff.mp h
  refine ⟨r, hr, ?_⟩
  simp only at h
  cases hst : r.status with
  | ok =>
      rw [hst] at h
      simp only at h
      split_ifs at h with hnil
      · exact Or.inr (Or.inl ⟨rfl, hnil, h⟩)
      obtain ⟨⟨s₁, parsed⟩, h₁, h⟩ := Option.bind_eq_some_iff.mp h
      simp only at h
      split_ifs at h with hlt
      · obtain ⟨s₂, h₂, he⟩ := Option.bind_eq_some_iff.mp h
        exact Or.inr (Or.inr
          ⟨rfl, hnil, s₁, parsed, h₁, Or.inl ⟨hlt, s₂, h₂, (Option.some.inj he).symm⟩⟩)
      · exact Or.inr (Or.inr ⟨rfl, hnil, s₁, parsed, h₁, Or.inr ⟨by omega, h⟩⟩)
  | _ =>
      rw [hst] at h
      exact Or.inl ⟨by decide, _, _, (Option.some.inj h).symm⟩

/-- The end of a response: the session is done, or ready for the next request. -/
lemma respDone_spec (env : SessionEnv σ) (shutdown : Bool) (q : Nbq) (s : Session σ) :
    respDone env shutdown q s = { s with outQ := some q.resetWrite, ncState := .done } ∨
      (s.rqst.supportsKeepAlives = true ∧ respDone env shutdown q s =
        { s with
          outQ := some q.resetWrite
          rqst := { Hmsg.init .rqst with supportsKeepAlives := true }
          parser := env.parser.init, given := .empty, ncState := .connected, call := none }) := by
  unfold respDone
  simp only
  split_ifs with hka
  · exact Or.inr ⟨by simp_all, rfl⟩
  · exact Or.inl rfl

/-- A turn that writes: what the socket took was sent; if the queue is empty then, the response
may be done, or an upstream object goes on. -/
lemma writeTurn_spec {t : WriteTurn} (h : s.writeTurn env t = some s') :
    ∃ q st out, Nconn.ncWrite (s.outQ.getD (Nbq.init env.bsize)) t.sock = some (q, st, out) ∧
      ((∃ n c, s' = { s with outQ := some q, sent := s.sent ++ out, ncState := n, call := c }) ∨
        (st = .ok ∧ q.readAvail = 0 ∧ ∃ shutdown u, (s.ups = false → u = false) ∧
          (s.ups = false ∨ t.ups = .done shutdown) ∧
          s' = respDone env shutdown q
            { s with outQ := some q, sent := s.sent ++ out, ups := u }) ∨
        (s.ups = true ∧ ∃ xs q' n, q.write (some xs) = some (q', n) ∧
          s' = { s with outQ := some q', sent := s.sent ++ out })) := by
  obtain ⟨⟨q, st, out⟩, hw, h⟩ := Option.bind_eq_some_iff.mp h
  refine ⟨q, st, out, hw, ?_⟩
  simp only at h
  cases hst : st with
  | ok =>
      rw [hst] at h
      simp only at h
      split_ifs at h with hz hups
      · cases hu : t.ups with
        | done shutdown =>
            rw [hu] at h
            exact Or.inr (Or.inl ⟨rfl, hz, shutdown, false, fun _ => rfl, Or.inr rfl,
              (Option.some.inj h).symm⟩)
        | ahead xs =>
            rw [hu] at h
            cases xs with
            | nil => exact Or.inl ⟨_, _, (Option.some.inj h).symm⟩
            | cons x xs =>
                obtain ⟨⟨q', n⟩, hq', he⟩ := Option.bind_eq_some_iff.mp h
                exact Or.inr (Or.inr ⟨hups, x :: xs, q', n, hq', (Option.some.inj he).symm⟩)
      · exact Or.inr (Or.inl ⟨rfl, hz, false, _, id, Or.inl (by simpa using hups),
          (Option.some.inj h).symm⟩)
      · exact Or.inl ⟨_, _, (Option.some.inj h).symm⟩
  | _ =>
      rw [hst] at h
      exact Or.inl ⟨_, _, (Option.some.inj h).symm⟩

/-- **What a step can do**: read, write, answer late, or none of these.  A session that is done
stays so. -/
lemma step_cases {a : Act} (h : s.step env a = some s') :
    (∃ n c g, (s.ncState = .done → n = .done) ∧
      s' = { s with ncState := n, call := c, gone := g }) ∨
    (∃ i r, a = .respond i r ∧ i ∈ s.deferred ∧
      queueApiResp env i r { s with deferred := s.deferred.erase i } = some s') ∨
    (∃ t, a = .read t ∧ s.ncState = .connected ∧ s.readTurn env t = some s') ∨
    (∃ t, a = .write t ∧ s.ncState = .connected ∧ s.writeTurn env t = some s') := by
  unfold step at h
  by_cases hgone : s.gone = true
  · rw [if_pos hgone] at h
    cases h
  rw [if_neg hgone] at h
  split at h
  case h_1 mode expired _ =>
      left
      obtain rfl := Option.some.inj h
      cases mode <;> simp only [event] <;> (try split_ifs) <;> exact ⟨_, _, _, id, rfl⟩
  case h_2 i r _ =>
      split_ifs at h with hi
      exact Or.inr (Or.inl ⟨i, r, rfl, hi, h⟩)
  case h_3 => exact Or.inl ⟨_, _, _, id, (Option.some.inj h).symm⟩
  case h_4 =>
      split_ifs at h with hacc
      · exact Or.inl ⟨_, _, _, id, (Option.some.inj h).symm⟩
      · refine Or.inl ⟨_, _, _, fun hd => ?_, (Option.some.inj h).symm⟩
        rw [hacc] at hd
        cases hd
  case h_5 t _ =>
      split_ifs at h with hconn
      exact Or.inr (Or.inr (Or.inl ⟨t, rfl, hconn, h⟩))
  case h_6 t _ =>
      split_ifs at h with hconn
      exact Or.inr (Or.inr (Or.inr ⟨t, rfl, hconn, h⟩))
  case h_7 =>
      split at h
      · exact Or.inl ⟨_, _, _, id, (Option.some.inj h).symm⟩
      · cases h
      · cases h
      · exact Or.inl ⟨_, _, _, id, (Option.some.inj h).symm⟩
  case h_8 => cases h

end Session

end Is2
