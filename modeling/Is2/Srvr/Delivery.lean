import Is2.Srvr.Bases
import Is2.Srvr.Scripted
import Mathlib.Data.List.Sort

/-!
# Are responses delivered?

`queue_api_resp` serializes a response into the session's output queue, and the first thing
`serialize` does is to reset that queue.  What an earlier response left in it is lost.  Nothing in
the session waits: a request that is complete is handled at once, whether or not the response to
the one before was sent, or is even known.

So a response may only be serialized when the queue is drained, and no response to a later request
was serialized before.  `DeliveryOk` says so of the steps that serialize one, and leaves two things
out that do not go through `serialize`: the interim response to an `Expect` header, which is written
past the output queue, and upstream objects.  In runs that meet it nothing is lost
(`sent_prefix_of_responses`): what was sent and what is left in the queue together are the
serialized responses, in the order of the requests.
-/

namespace Is2

/-! ## Serializing -/

section Serialize

variable {q : Nbq} {a : SeekQueue UInt8}

/-- Writing a null pointer fails and changes nothing. -/
lemma Nbq.Rep.writeBuf (h : Nbq.Rep q a) (buf : Option (List UInt8)) :
    ∃ q' n, q.write buf = some (q', n) ∧ Nbq.Rep q' (a.append (buf.getD [])) := by
  cases buf with
  | none =>
      refine ⟨q, -1, rfl, ?_⟩
      obtain ⟨r, w, hwf, hf, hc, hr⟩ := h
      refine ⟨r, w, hwf, hf, ?_, ?_⟩
      · rw [hc]
        exact (List.append_nil _).symm
      · rw [hr, a.consumed_append]
  | some bytes =>
      obtain ⟨q', he, h'⟩ := h.write bytes
      exact ⟨q', _, he, h'⟩

lemma Nbq.Rep.writeBufs (bufs : List (Option (List UInt8))) :
    ∀ {q : Nbq} {a : SeekQueue UInt8}, Nbq.Rep q a →
      ∃ q' a', bufs.foldlM (fun q buf => (q.write buf).map (·.1)) q = some q' ∧ Nbq.Rep q' a' ∧
        a'.unread = a.unread ++ bufs.flatMap (·.getD []) := by
  induction bufs with
  | nil => exact fun h => ⟨_, _, rfl, h, by simp⟩
  | cons buf bufs ih =>
      intro q a h
      obtain ⟨q₁, n, he₁, h₁⟩ := h.writeBuf buf
      obtain ⟨q', a', he, h', hu⟩ := ih h₁
      refine ⟨q', a', ?_, h', ?_⟩
      · simp [List.foldlM_cons, he₁, he]
      · rw [hu, a.unread_append, List.flatMap_cons, List.append_assoc]

/-- Serializing leaves the response and nothing else in the queue. -/
lemma ApiResp.serialize_spec (codes : ℕ → Option (List UInt8)) (r : ApiResp) (h : Nbq.Rep q a) :
    ∃ q' a', r.serialize codes q = some q' ∧ Nbq.Rep q' a' ∧ a'.unread = r.bytes codes := by
  obtain ⟨q', a', he, h', hu⟩ := Nbq.Rep.writeBufs (r.buffers codes) h.resetWrite
  exact ⟨q', a', he, h', hu⟩

end Serialize

/-- The bytes of the responses. -/
def bytesOf (rs : List Response) : List UInt8 := rs.flatMap (·.bytes)

/-- The responses in the order of the requests they answer. -/
def inRequestOrder (rs : List Response) : List Response :=
  rs.insertionSort fun x y => x.rqst ≤ y.rqst

def Answer.isResp : Answer → Bool
  | .resp _ => true
  | _ => false

namespace Session

variable {σ : Type} {env : SessionEnv σ} {s s' : Session σ}

/-- The output queue; a session without one is given an empty one when it needs it. -/
def output (env : SessionEnv σ) (s : Session σ) : Nbq := s.outQ.getD (Nbq.init env.bsize)

/-- All of the earlier responses was sent. -/
def Drained (env : SessionEnv σ) (s : Session σ) : Prop := (s.output env).readAvail = 0

/-- Does this callback report the header name `Expect`? -/
def reportsExpect (bytes : List UInt8) : ParserEvent → Bool
  | .data .headerField off len => Hmsg.isExpect (Cr.slice ⟨off, len⟩ bytes)
  | _ => false

/-- Does this callback report the end of a message? -/
def reportsEnd : ParserEvent → Bool
  | .complete _ => true
  | _ => false

/-- The parser refuses some of what was read. -/
def Refuses (env : SessionEnv σ) (s : Session σ) (r : NcRead) : Prop :=
  (env.parser.execute s.parser r.bytes).2.2 < r.bytes.length

/-- The request is complete behind the read. -/
def Completes (env : SessionEnv σ) (s : Session σ) (r : NcRead) : Prop :=
  s.rqst.complete = true ∨
    r.bytes ≠ [] ∧ ∃ ev ∈ (env.parser.execute s.parser r.bytes).2.1, reportsEnd ev = true

/-- The turn serializes a response: that of `send_bad_request`, or that of the handler.  Where
`handle_req` refuses the URL the handler is not asked, and any answer is the same step. -/
def Serializes (env : SessionEnv σ) (s : Session σ) (t : ReadTurn) (r : NcRead) : Prop :=
  r.status = .ok ∧ (Refuses env s r ∨ (Completes env s r ∧ t.answer.isResp = true))

/-- The condition on a turn that reads: no `Expect`, no upstream object, and a response only when
the queue is drained. -/
def ReadDelivers (env : SessionEnv σ) (s : Session σ) (t : ReadTurn) : Prop :=
  ∀ r ∈ Nconn.ncRead s.inQ s.pending t.sock,
    (r.bytes ≠ [] → ∀ ev ∈ (env.parser.execute s.parser r.bytes).2.1,
      reportsExpect r.bytes ev = false) ∧
    (Completes env s r → t.answer ≠ .upstream) ∧ (Serializes env s t r → s.Drained env)

/-- The condition on a step.  A late answer also comes before those to later requests. -/
def DeliveryOk (env : SessionEnv σ) (s : Session σ) : Act → Prop
  | .read t => ReadDelivers env s t
  | .respond i _ => s.Drained env ∧ ∀ x ∈ s.responses, x.rqst ≤ i
  | _ => True

instance (s : Session σ) : Decidable (s.Drained env) :=
  inferInstanceAs (Decidable ((s.output env).readAvail = 0))

instance (s : Session σ) (r : NcRead) : Decidable (Refuses env s r) :=
  inferInstanceAs (Decidable (_ < _))

instance (s : Session σ) (r : NcRead) : Decidable (Completes env s r) :=
  inferInstanceAs (Decidable (_ ∨ _ ∧ ∃ ev ∈ _, _))

instance (s : Session σ) (t : ReadTurn) (r : NcRead) : Decidable (Serializes env s t r) :=
  inferInstanceAs (Decidable (_ ∧ (_ ∨ (_ ∧ _))))

instance (s : Session σ) (t : ReadTurn) : Decidable (ReadDelivers env s t) :=
  inferInstanceAs (Decidable (∀ r ∈ Nconn.ncRead s.inQ s.pending t.sock,
    (r.bytes ≠ [] → ∀ ev ∈ (env.parser.execute s.parser r.bytes).2.1,
      reportsExpect r.bytes ev = false) ∧
    (Completes env s r → t.answer ≠ .upstream) ∧ (Serializes env s t r → s.Drained env)))

instance (s : Session σ) : ∀ a, Decidable (DeliveryOk env s a)
  | .read t => inferInstanceAs (Decidable (ReadDelivers env s t))
  | .respond i _ => inferInstanceAs (Decidable (s.Drained env ∧ ∀ x ∈ s.responses, x.rqst ≤ i))
  | .event _ _ => .isTrue trivial
  | .stopped => .isTrue trivial
  | .accept _ _ => .isTrue trivial
  | .write _ => .isTrue trivial
  | .top => .isTrue trivial

/-- The invariant: what was sent, then what is left in the queue; the responses come in the order of
their requests, which were handled. -/
structure DeliveryInv (env : SessionEnv σ) (s : Session σ) : Prop where
  ups : s.ups = false
  expect : s.rqst.expect = false
  queue : ∃ a, Nbq.Rep (s.output env) a ∧ s.sent ++ a.unread = bytesOf s.responses
  ordered : s.responses.Pairwise fun x y => x.rqst ≤ y.rqst
  answered : ∀ x ∈ s.responses, x.rqst ≤ s.handled.length
  deferred : ∀ i ∈ s.deferred, i < s.handled.length

lemma Drained.unread {a : SeekQueue UInt8} (hd : s.Drained env) (h : Nbq.Rep (s.output env) a) :
    a.unread = [] := by
  rw [Drained, h.readAvail, ← a.length_unread] at hd
  exact List.length_eq_zero_iff.mp hd

/-- **A response queued on a drained queue** is behind everything that was sent, and behind the
responses to earlier requests. -/
lemma DeliveryInv.queueApiResp {i : ℕ} {r : ApiResp} (hi : DeliveryInv env s) (hd : s.Drained env)
    (hlast : ∀ x ∈ s.responses, x.rqst ≤ i) (hle : i ≤ s.handled.length)
    (h : s.queueApiResp env i r = some s') : DeliveryInv env s' := by
  obtain ⟨q, hq, rfl⟩ := queueApiResp_spec h
  obtain ⟨a, hrep, hsent⟩ := hi.queue
  obtain ⟨q', a', hq', hrep', hu⟩ := r.serialize_spec env.codes hrep
  obtain rfl : q = q' := Option.some.inj (hq.symm.trans hq')
  refine ⟨hi.ups, hi.expect, ⟨a', hrep', ?_⟩, ?_, ?_, hi.deferred⟩
  · rw [hd.unread hrep, List.append_nil] at hsent
    simp only
    rw [hu, hsent, bytesOf, bytesOf, List.flatMap_append, List.flatMap_singleton]
  · refine List.pairwise_append.mpr ⟨hi.ordered, List.pairwise_singleton _ _, fun x hx y hy => ?_⟩
    rw [List.mem_singleton.mp hy]
    exact hlast x hx
  · intro x hx
    rcases List.mem_append.mp hx with hx | hx
    · exact hi.answered x hx
    · rw [List.mem_singleton.mp hx]
      exact hle

/-- A request that is logged, with what `handle_req` did about its answer. -/
lemma DeliveryInv.logged {a : Answer} {ans : Replies} (hi : DeliveryInv env s)
    (hup : a ≠ .upstream) (hd : a.isResp = true → s.Drained env) (hans : Answered env s a ans)
    (q : Nbq) : DeliveryInv env (s.logged q ans) := by
  have hlen : (s.logged q ans).handled.length = s.handled.length + 1 := List.length_append
  have hlog : ∀ {s₁ : Session σ}, DeliveryInv env s₁ → s₁.handled = s.handled →
      s₁.rqst = s.rqst → s₁.sent = s.sent → ans = s₁.replies →
      DeliveryInv env (s.logged q ans) := by
    rintro s₁ h₁ hh hr hs rfl
    refine ⟨h₁.ups, hr ▸ h₁.expect, hs ▸ h₁.queue, h₁.ordered, fun x hx => ?_, fun i hi => ?_⟩
    · have := h₁.answered x hx
      rw [hlen, ← hh]
      omega
    · have := h₁.deferred i hi
      rw [hlen, ← hh]
      omega
  cases hans with
  | none => exact hlog hi rfl rfl rfl rfl
  | upstream => exact absurd rfl hup
  | deferred =>
      refine ⟨hi.ups, hi.expect, hi.queue, hi.ordered, fun x hx => ?_, fun i hmem => ?_⟩
      · have := hi.answered x hx
        rw [hlen]
        omega
      · rw [hlen]
        rcases List.mem_append.mp hmem with hmem | hmem
        · have := hi.deferred i hmem
          omega
        · rw [List.mem_singleton.mp hmem]
          omega
  | @resp r q' hq =>
      have hresp : s.queueApiResp env s.handled.length r = some { s with
          outQ := some q'
          responses := s.responses ++ [⟨s.handled.length, r.bytes env.codes⟩] } := by
        rw [Session.queueApiResp, hq]
        rfl
      exact hlog (hi.queueApiResp (hd rfl) hi.answered (le_refl _) hresp) rfl rfl rfl rfl

lemma DeliveryInv.dispatch {a : Answer} (hi : DeliveryInv env s)
    (hok : s.rqst.complete = true → a ≠ .upstream ∧ (a.isResp = true → s.Drained env))
    (h : s.dispatch env a = some s') : DeliveryInv env s' := by
  rcases dispatch_spec h with ⟨-, rfl⟩ | ⟨q, url, ans, hcomp, -, hans, hs'⟩
  · exact hi
  obtain ⟨hup, hd⟩ := hok hcomp
  rcases hs' with rfl | rfl
  · have hl := hi.logged hup hd hans q
    exact ⟨hl.ups, hl.expect, hl.queue, hl.ordered, hl.answered, hl.deferred⟩
  · have hl := hi.logged hup hd hans q.resetWrite
    exact ⟨hl.ups, rfl, hl.queue, hl.ordered, hl.answered, hl.deferred⟩

lemma DeliveryInv.finishRead {t : ReadTurn} (hi : DeliveryInv env s)
    (hok : s.rqst.complete = true →
      t.answer ≠ .upstream ∧ (t.answer.isResp = true → s.Drained env))
    (h : s.finishRead env t = some s') : DeliveryInv env s' := by
  unfold Session.finishRead at h
  obtain ⟨s₁, h₁, h⟩ := Option.bind_eq_some_iff.mp h
  rw [sendExpect, if_neg (by rw [hi.expect]; decide)] at h₁
  obtain rfl := Option.some.inj h₁
  exact hi.dispatch hok h

/-! ## What the callbacks of a read leave -/

lemma onData_expect {h : Hmsg} {cb : DataCb} (he : h.expect = false)
    (hno : cb.kind = .headerField → Hmsg.isExpect cb.bytes = false) :
    (h.onData cb).expect = false := by
  rcases cb with ⟨kind, ptr, bytes⟩
  cases kind <;> simp_all [Hmsg.onData, Hmsg.hpOnUrl, Hmsg.hpOnStatus, Hmsg.hpOnHeaderField,
    Hmsg.hpOnHeaderValue, Hmsg.hpOnBody, apply_ite Hmsg.expect]

lemma foldl_expect {buf : ℤ} {bytes : List UInt8} {evs : List ParserEvent} :
    ∀ {h : Hmsg}, h.expect = false → (∀ ev ∈ evs, reportsExpect bytes ev = false) →
      (evs.foldl (Hmsg.onEvent buf bytes) h).expect = false := by
  induction evs with
  | nil => exact fun he _ => he
  | cons ev evs ih =>
      intro h he hno
      refine ih ?_ (fun e hm => hno e (List.mem_cons_of_mem _ hm))
      have hev := hno ev List.mem_cons_self
      cases ev with
      | complete ka => exact he
      | data kind off len =>
          refine onData_expect he fun hk => ?_
          simp only at hk
          subst hk
          exact hev

lemma reportsEnd_of_endOf {ev : ParserEvent} {ka : Bool} (h : endOf ev = some ka) :
    reportsEnd ev = true := by
  cases ev with
  | complete => rfl
  | data => cases h

lemma DeliveryInv.readTurn {t : ReadTurn} (hi : DeliveryInv env s) (hok : ReadDelivers env s t)
    (h : s.readTurn env t = some s') : DeliveryInv env s' := by
  obtain ⟨r, hr, hcases⟩ := readTurn_spec h
  obtain ⟨hexp, hup, hd⟩ := hok r hr
  rcases hcases with ⟨-, n, c, rfl⟩ | ⟨hst, hnil, hfin⟩ | ⟨hst, hne, s₁, parsed, hparse, hrest⟩
  · exact ⟨hi.ups, hi.expect, hi.queue, hi.ordered, hi.answered, hi.deferred⟩
  · have hi' : DeliveryInv env { s with inQ := r.q, pending := r.pending } :=
      ⟨hi.ups, hi.expect, hi.queue, hi.ordered, hi.answered, hi.deferred⟩
    exact hi'.finishRead (fun hcomp => ⟨hup (.inl hcomp), fun hresp =>
      hd ⟨hst, .inr ⟨.inl hcomp, hresp⟩⟩⟩) hfin
  obtain ⟨base, -, hparsed, hin, hs₁⟩ := parseRead_spec hparse
  have hrqst : s₁.rqst = _ := congrArg Input.rqst hin
  simp only [parsedInput, input, foldl_onEventGiven_rqst] at hrqst
  have hi₁ : DeliveryInv env s₁ := by
    rw [hs₁]
    refine ⟨hi.ups, ?_, hi.queue, hi.ordered, hi.answered, hi.deferred⟩
    rw [hrqst]
    exact foldl_expect hi.expect (hexp hne)
  have hd₁ : Serializes env s t r → s₁.Drained env := by
    intro hser
    rw [hs₁]
    exact hd hser
  rcases hrest with ⟨hlt, s₂, hq, rfl⟩ | ⟨-, hfin⟩
  · -- the parser refused the bytes
    rw [hparsed] at hlt
    have hi₂ := hi₁.queueApiResp (hd₁ ⟨hst, .inl hlt⟩) hi₁.answered (le_refl _) hq
    exact ⟨hi₂.ups, hi₂.expect, hi₂.queue, hi₂.ordered, hi₂.answered, hi₂.deferred⟩
  · refine hi₁.finishRead (fun hcomp => ?_) hfin
    have hcompletes : Completes env s r := by
      rw [hrqst, foldl_onEvent_complete, Bool.or_eq_true] at hcomp
      refine hcomp.imp id fun hend => ⟨hne, ?_⟩
      have hsome : ∃ ev ∈ (env.parser.execute s.parser r.bytes).2.1, endOf ev ≠ none := by
        simpa using hend
      obtain ⟨ev, hev, he⟩ := hsome
      obtain ⟨ka, hka⟩ := Option.ne_none_iff_exists'.mp he
      exact ⟨ev, hev, reportsEnd_of_endOf hka⟩
    exact ⟨hup hcompletes, fun hresp => hd₁ ⟨hst, .inr ⟨hcompletes, hresp⟩⟩⟩

lemma DeliveryInv.writeTurn {t : WriteTurn} (hi : DeliveryInv env s)
    (h : s.writeTurn env t = some s') : DeliveryInv env s' := by
  obtain ⟨q, st, out, hw, hcases⟩ := writeTurn_spec h
  obtain ⟨a, hrep, hsent⟩ := hi.queue
  obtain ⟨a', hrep', hu⟩ := hrep.ncWrite hw
  have hsent' : (s.sent ++ out) ++ a'.unread = bytesOf s.responses := by
    rw [List.append_assoc, ← hu, hsent]
  rcases hcases with ⟨n, c, rfl⟩ | ⟨-, hz, shutdown, u, hu', -, rfl⟩ | ⟨hups, -⟩
  · exact ⟨hi.ups, hi.expect, ⟨a', hrep', hsent'⟩, hi.ordered, hi.answered, hi.deferred⟩
  · -- all was sent, so the reset loses nothing
    have hnil : a'.unread = [] := by
      rw [hrep'.readAvail, ← a'.length_unread] at hz
      exact List.length_eq_zero_iff.mp hz
    rw [hnil] at hsent'
    rcases respDone_spec env shutdown q { s with outQ := some q, sent := s.sent ++ out, ups := u }
      with he | ⟨-, he⟩
    · rw [he]
      exact ⟨hu' hi.ups, hi.expect, ⟨.empty, hrep'.resetWrite, hsent'⟩, hi.ordered, hi.answered,
        hi.deferred⟩
    · rw [he]
      exact ⟨hu' hi.ups, rfl, ⟨.empty, hrep'.resetWrite, hsent'⟩, hi.ordered, hi.answered,
        hi.deferred⟩
  · rw [hi.ups] at hups
    cases hups

lemma DeliveryInv.step {a : Act} (hi : DeliveryInv env s) (hok : DeliveryOk env s a)
    (h : s.step env a = some s') : DeliveryInv env s' := by
  rcases step_cases h with ⟨n, c, g, -, rfl⟩ | ⟨i, r, rfl, hmem, hq⟩ | ⟨t, rfl, -, hr⟩ |
    ⟨t, rfl, -, hw⟩
  · exact ⟨hi.ups, hi.expect, hi.queue, hi.ordered, hi.answered, hi.deferred⟩
  · have hi' : DeliveryInv env { s with deferred := s.deferred.erase i } :=
      ⟨hi.ups, hi.expect, hi.queue, hi.ordered, hi.answered,
        fun j hj => hi.deferred j (List.mem_of_mem_erase hj)⟩
    exact hi'.queueApiResp hok.1 hok.2 (hi.deferred i hmem).le hq
  · exact hi.readTurn hok hr
  · exact hi.writeTurn hw

end Session

/-- **Response delivery.**  In every run in which responses are only serialized into a drained
queue, and none behind that to a later request, the bytes sent and the bytes left in the output
queue are together the serialized responses in the order of the requests, so the bytes sent are a
prefix of them. -/
theorem sent_prefix_of_responses {σ : Type} (env : SessionEnv σ) (h0 : 0 < env.bsize)
    (hb : env.bsize < 2 ^ 31) (stream : List UInt8) (s : Session σ)
    (h : ((Session.machine env stream).guarded (Session.DeliveryOk env)).Reachable s) :
    s.sent ++ (s.output env).unread = bytesOf (inRequestOrder s.responses) ∧
      s.sent <+: bytesOf (inRequestOrder s.responses) := by
  have hi : Session.DeliveryInv env s := by
    refine h.invariant (P := Session.DeliveryInv env) ?_ ?_
    · rintro s rfl
      exact ⟨rfl, rfl, ⟨.empty, Nbq.rep_init h0 hb, rfl⟩, .nil, by simp [Session.start],
        by simp [Session.start]⟩
    · rintro s a t hs ⟨hok, hst⟩
      exact hs.step hok hst
  obtain ⟨a, hrep, hsent⟩ := hi.queue
  have horder : inRequestOrder s.responses = s.responses := hi.ordered.insertionSort_eq
  rw [hrep.unread, horder]
  exact ⟨hsent, a.unread, hsent⟩

/-! ## Runs -/

/-- The client's `GET /ab` comes in one read and is answered at once. -/
def answeredRead (body : UInt8) : Session.Act :=
  .read ⟨.data 29, fun i => 4096 * i, .accept 0, .resp ⟨200, [], some [body]⟩⟩

/-- It is to be answered later. -/
def deferredRead : Session.Act := .read ⟨.data 29, fun i => 4096 * i, .accept 0, .deferred⟩

/-- A read that finds nothing. -/
def nothingToRead : Session.Act := .read ⟨.data 0, fun i => 4096 * i, .accept 0, .deferred⟩

def sendUpTo (k : ℕ) : Session.Act := .write ⟨.accept k, .ahead []⟩

/-- Two requests; the second one comes when the first response was sent, in two pieces. -/
theorem sent_prefix_of_responses_getAb : ∃ s : Session ℕ,
    ((Session.machine getAbEnv (getAb.bytes ++ getAb.bytes)).guarded
      (Session.DeliveryOk getAbEnv)).Reachable s ∧
    s.responses.length = 2 ∧ s.sent.length = 25 ∧
    s.sent <+: bytesOf (inRequestOrder s.responses) := by
  have hrun : ([Session.Act.event .read false, .accept .ok false, answeredRead 49, nothingToRead,
        .event .write false, sendUpTo 7, sendUpTo 100,
        .event .read false, answeredRead 50, nothingToRead,
        .event .write false, sendUpTo 5].foldlM
      (fun s a => if Session.DeliveryOk getAbEnv s a then Session.step getAbEnv s a else none)
      (Session.start getAbEnv (getAb.bytes ++ getAb.bytes))).map
        (fun s => (s.responses.length, s.sent.length)) = some (2, 25) := by decide +kernel
  obtain ⟨s, hs, hh⟩ := Option.map_eq_some_iff.mp hrun
  obtain ⟨hresp, hsent⟩ := Prod.mk.inj hh
  have hreach : ((Session.machine getAbEnv (getAb.bytes ++ getAb.bytes)).guarded
      (Session.DeliveryOk getAbEnv)).Reachable s :=
    .guarded_foldlM (fun _ _ _ he => he) rfl hs
  exact ⟨s, hreach, hresp, hsent,
    (sent_prefix_of_responses getAbEnv (by decide) (by decide) _ s hreach).2⟩

/-- Two requests in two reads of one call, answered at once. -/
def overwrittenRun : List Session.Act :=
  [.event .read false, .accept .ok false, answeredRead 49, answeredRead 50, nothingToRead,
    .event .write false, sendUpTo 100]

/-- Two requests in two reads of one call, the first of them answered last. -/
def overtakenRun : List Session.Act :=
  [.event .read false, .accept .ok false, deferredRead, answeredRead 50, nothingToRead,
    .event .write false, sendUpTo 100, .respond 0 ⟨200, [], some [49]⟩,
    .event .write false, sendUpTo 100]

/-- The run is one of the session, and what was sent in it is not in the order of the requests. -/
def Misdelivers (as : List Session.Act) : Prop :=
  ∃ s : Session ℕ,
    as.foldlM (Session.step getAbEnv) (Session.start getAbEnv (getAb.bytes ++ getAb.bytes))
      = some s ∧
    (Session.machine getAbEnv (getAb.bytes ++ getAb.bytes)).Reachable s ∧
    ¬ s.sent <+: bytesOf (inRequestOrder s.responses)

lemma misdelivers_of_run {as : List Session.Act}
    (h : (as.foldlM (Session.step getAbEnv)
      (Session.start getAbEnv (getAb.bytes ++ getAb.bytes))).map
        (fun s => decide (s.sent <+: bytesOf (inRequestOrder s.responses))) = some false) :
    Misdelivers as := by
  obtain ⟨s, hs, hh⟩ := Option.map_eq_some_iff.mp h
  exact ⟨s, hs, .foldlM (fun s a t he => he) (.start rfl) hs, of_decide_eq_false hh⟩

/-- In the first run the second response is written over the first, in the second one it is sent
before the first. -/
theorem pipelined_response_is_lost : Misdelivers overwrittenRun ∧ Misdelivers overtakenRun := by
  constructor
  · exact misdelivers_of_run (by decide +kernel)
  · exact misdelivers_of_run (by decide +kernel)

end Is2
