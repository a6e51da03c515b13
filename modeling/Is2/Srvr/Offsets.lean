import Is2.Srvr.Bases
import Is2.Srvr.Scripted

/-!
# The recorded offsets of a request

A callback records an offset into the input queue.  `BasesRight` says of a read when the bases that
it uses are right.  A callback for body bytes uses them only when it records the first stretch; any
other one extends the range that is recorded, and so must go on where that one ends
(`BodyInRow`).

`ReadRight` says so of the callbacks of a read, and `recorded_offsets_designate` that in runs whose
reads are all right every recorded pair designates the bytes its callback was given.
-/

namespace Is2

/-! ## The property -/

/-- `copy_part` gives these bytes for the range. -/
def Designates (q : Nbq) (p : Cr) (bytes : List UInt8) : Prop :=
  ∃ q', q.copyPart p.off p.len = some (q', bytes)

/-- Every recorded pair designates what its callback was given. -/
structure Faithful (q : Nbq) (h : Hmsg) (g : Given) : Prop where
  url : Designates q h.pUrl g.url
  keys : List.Forall₂ (Designates q) h.pHListKey g.keys
  vals : List.Forall₂ (Designates q) h.pHListVal g.vals
  body : Designates q h.pBody g.body

/-- A range of `c` and its bytes. -/
def Spans (c : List UInt8) (p : Cr) (bytes : List UInt8) : Prop :=
  p.stop ≤ c.length ∧ p.slice c = bytes

/-- The same over the contents of the queue. -/
structure Recorded (c : List UInt8) (h : Hmsg) (g : Given) : Prop where
  type : h.type = .rqst
  bodyAt : h.pBody = g.bodyAt
  url : Spans c h.pUrl g.url
  keys : List.Forall₂ (Spans c) h.pHListKey g.keys
  vals : List.Forall₂ (Spans c) h.pHListVal g.vals
  body : Spans c h.pBody g.body

section Recorded

variable {c : List UInt8} {h : Hmsg} {g : Given} {q : Nbq} {a : SeekQueue UInt8}

lemma Spans.designates {p : Cr} {bytes : List UInt8} (hp : Spans a.contents p bytes)
    (hq : Nbq.Rep q a) : Designates q p bytes := by
  obtain ⟨hstop, rfl⟩ := hp
  obtain ⟨q', -, he, -⟩ := hq.copyPart hstop
  exact ⟨q', he⟩

lemma Recorded.faithful (hr : Recorded a.contents h g) (hq : Nbq.Rep q a) : Faithful q h g where
  url := hr.url.designates hq
  keys := hr.keys.imp fun _ _ hp => hp.designates hq
  vals := hr.vals.imp fun _ _ hp => hp.designates hq
  body := hr.body.designates hq

/-- Nothing recorded designates nothing. -/
lemma spans_empty (c : List UInt8) : Spans c ⟨0, 0⟩ [] := ⟨Nat.zero_le _, rfl⟩

lemma recorded_init (c : List UInt8) (ka : Bool) :
    Recorded c { Hmsg.init .rqst with supportsKeepAlives := ka } .empty where
  type := rfl
  bodyAt := rfl
  url := spans_empty c
  keys := .nil
  vals := .nil
  body := spans_empty c

/-- Bytes that come later do not move what is recorded. -/
lemma Spans.append {p : Cr} {bytes : List UInt8} (hp : Spans c p bytes) (xs : List UInt8) :
    Spans (c ++ xs) p bytes := by
  obtain ⟨hstop, rfl⟩ := hp
  refine ⟨by rw [List.length_append]; omega, ?_⟩
  rw [Cr.stop] at hstop
  rw [Cr.slice, Cr.slice, List.drop_append_of_le_length (by omega), List.take_append_of_le_length]
  rw [List.length_drop]
  omega

lemma Recorded.append (hr : Recorded c h g) (xs : List UInt8) : Recorded (c ++ xs) h g where
  type := hr.type
  bodyAt := hr.bodyAt
  url := hr.url.append xs
  keys := hr.keys.imp fun _ _ hp => hp.append xs
  vals := hr.vals.imp fun _ _ hp => hp.append xs
  body := hr.body.append xs

/-- A stretch of the bytes that were just appended. -/
lemma spans_of_appended {bytes : List UInt8} {off len : ℕ} (hb : off + len ≤ bytes.length) :
    Spans (c ++ bytes) ⟨c.length + off, len⟩ (Cr.slice ⟨off, len⟩ bytes) := by
  refine ⟨?_, ?_⟩
  · rw [Cr.stop, List.length_append]
    simp only
    omega
  · rw [Cr.slice, Cr.slice]
    simp only
    rw [← List.drop_drop, List.drop_left]

/-- A range goes on with the bytes right behind it. -/
lemma Spans.extend {p : Cr} {bs bytes : List UInt8} {off len : ℕ} (hp : Spans (c ++ bytes) p bs)
    (hb : off + len ≤ bytes.length) (hgo : c.length + off = p.stop) :
    Spans (c ++ bytes) ⟨p.off, p.len + len⟩ (bs ++ Cr.slice ⟨off, len⟩ bytes) := by
  obtain ⟨-, rfl⟩ := hp
  obtain ⟨hstop, heq⟩ := spans_of_appended (c := c) hb
  simp only [Cr.stop] at hstop hgo
  refine ⟨by simp only [Cr.stop]; omega, ?_⟩
  rw [← heq, hgo]
  simp only [Cr.slice]
  rw [List.take_add, List.drop_drop]

end Recorded

/-! ## Right callbacks -/

/-- Does a callback start the body, or go on where the range of the body ends? -/
def extendsBody (lo : ℕ) (body : Cr) : ParserEvent → Bool
  | .data .body off _ => body.off = 0 || lo + off = body.stop
  | _ => true

/-- The stretches of body are in a row, each one right behind what was recorded. -/
def BodyInRow (lo : ℕ) : Cr → List ParserEvent → Prop
  | _, [] => True
  | body, ev :: evs => extendsBody lo body ev = true ∧ BodyInRow lo (bodyAfter lo body ev) evs

instance decidableBodyInRow (lo : ℕ) : ∀ body evs, Decidable (BodyInRow lo body evs)
  | _, [] => .isTrue trivial
  | body, ev :: evs =>
      haveI : Decidable (BodyInRow lo (bodyAfter lo body ev) evs) := decidableBodyInRow lo _ evs
      inferInstanceAs (Decidable (_ ∧ _))

/-- `http_parser` only passes pointers into its buffer. -/
def InBounds {σ : Type} (P : HttpParser σ) : Prop :=
  ∀ st bytes k off len, .data k off len ∈ (P.execute st bytes).2.1 → off + len ≤ bytes.length

section Events

variable {c bytes : List UInt8} {h : Hmsg} {g : Given} {buf : ℤ} {based : Prop}

lemma Recorded.onEvent (hr : Recorded (c ++ bytes) h g)
    (hfit : c.length + bytes.length < 2 ^ 64) {ev : ParserEvent}
    (hbase : usesBases g.bodyAt ev = true → buf - h.curBuf + h.curOff = (c.length : ℤ))
    (hb : ∀ k off len, ev = .data k off len → off + len ≤ bytes.length)
    (hrow : extendsBody c.length g.bodyAt ev = true) :
    Recorded (c ++ bytes) (onEventGiven buf c.length bytes (h, g) ev).1
      (onEventGiven buf c.length bytes (h, g) ev).2 := by
  cases ev with
  | complete ka => exact ⟨hr.type, hr.bodyAt, hr.url, hr.keys, hr.vals, hr.body⟩
  | data kind off len =>
      have hlen := hb kind off len rfl
      have hplace : usesBases g.bodyAt (.data kind off len) = true →
          h.place (buf + off) (Cr.slice ⟨off, len⟩ bytes) = ⟨c.length + off, len⟩ := by
        intro huse
        exact place_eq (hbase huse) hfit hlen
      have hnew := spans_of_appended (c := c) hlen
      cases kind with
      | status =>
          have hsame : h.hpOnStatus (buf + off) (Cr.slice ⟨off, len⟩ bytes) = h := by
            rw [Hmsg.hpOnStatus, hr.type, if_neg (by decide)]
          simp only [onEventGiven, Hmsg.onEvent, Hmsg.onData, hsame]
          exact ⟨hr.type, hr.bodyAt, hr.url, hr.keys, hr.vals, hr.body⟩
      | url =>
          have hset : h.hpOnUrl (buf + off) (Cr.slice ⟨off, len⟩ bytes)
              = { h with pUrl := ⟨c.length + off, len⟩ } := by
            rw [Hmsg.hpOnUrl, hr.type, if_pos rfl, hplace rfl]
          simp only [onEventGiven, Hmsg.onEvent, Hmsg.onData, hset]
          exact ⟨hr.type, hr.bodyAt, hnew, hr.keys, hr.vals, hr.body⟩
      | headerField =>
          refine ⟨hr.type, hr.bodyAt, hr.url, ?_, hr.vals, hr.body⟩
          simp only [onEventGiven, Hmsg.onEvent, Hmsg.onData, Hmsg.hpOnHeaderField, hplace rfl]
          exact List.rel_append hr.keys (.cons hnew .nil)
      | headerValue =>
          refine ⟨hr.type, hr.bodyAt, hr.url, hr.keys, ?_, hr.body⟩
          simp only [onEventGiven, Hmsg.onEvent, Hmsg.onData, Hmsg.hpOnHeaderValue, hplace rfl]
          exact List.rel_append hr.vals (.cons hnew .nil)
      | body =>
          simp only [extendsBody, Bool.or_eq_true, decide_eq_true_eq] at hrow
          simp only [onEventGiven, Hmsg.onEvent, Hmsg.onData, Hmsg.hpOnBody, Given.onEvent,
            Given.onData]
          by_cases h0 : g.bodyAt.off = 0
          · rw [if_pos (hr.bodyAt ▸ h0), if_pos h0, bodyAdd, if_pos h0,
              hplace (by simp [usesBases, h0])]
            exact ⟨hr.type, rfl, hr.url, hr.keys, hr.vals, hnew⟩
          · have hl : (Cr.slice ⟨off, len⟩ bytes).length = len := Cr.length_slice hlen
            rw [if_neg (hr.bodyAt ▸ h0), if_neg h0, bodyAdd, if_neg h0, hl, hr.bodyAt]
            refine ⟨hr.type, rfl, hr.url, hr.keys, hr.vals, ?_⟩
            exact (hr.bodyAt ▸ hr.body).extend hlen (hrow.resolve_left h0)

/-- All callbacks of a read. -/
lemma Recorded.onEvents {evs : List ParserEvent} :
    ∀ {h : Hmsg} {g : Given}, Recorded (c ++ bytes) h g →
      c.length + bytes.length < 2 ^ 64 →
      ((∃ ev ∈ evs, usesBases g.bodyAt ev = true) → buf - h.curBuf + h.curOff = (c.length : ℤ)) →
      (∀ k off len, .data k off len ∈ evs → off + len ≤ bytes.length) →
      BodyInRow c.length g.bodyAt evs →
      Recorded (c ++ bytes) (evs.foldl (onEventGiven buf c.length bytes) (h, g)).1
        (evs.foldl (onEventGiven buf c.length bytes) (h, g)).2 := by
  induction evs with
  | nil => exact fun hr _ _ _ _ => hr
  | cons ev evs ih =>
      intro h g hr hfit hbase hb hrow
      obtain ⟨h1, h2⟩ := onEvent_bases h buf bytes ev
      have hstep := hr.onEvent hfit (fun huse => hbase ⟨ev, List.mem_cons_self, huse⟩)
        (fun k off len he => hb k off len (by rw [he]; exact List.mem_cons_self)) hrow.1
      have hafter := g.onEvent_bodyAt c.length bytes ev
      refine ih hstep hfit ?_ (fun k off len hm => hb k off len (List.mem_cons_of_mem _ hm)) ?_
      · rintro ⟨ev', hmem, huse⟩
        rw [h1, h2]
        rw [hafter] at huse
        rcases usesBases_after huse with huse | huse
        · exact hbase ⟨ev, List.mem_cons_self, huse⟩
        · exact hbase ⟨ev', List.mem_cons_of_mem _ hmem, huse⟩
      · rw [hafter]
        exact hrow.2

end Events

/-! ## Right reads -/

namespace Session

variable {σ : Type} {env : SessionEnv σ}

/-- The condition on a turn that reads: the bases are right if a callback uses them, the stretches
of body are in a row, and places are 64-bit numbers. -/
def ReadRight (env : SessionEnv σ) (s : Session σ) (t : ReadTurn) : Prop :=
  ∀ r ∈ Nconn.ncRead s.inQ s.pending t.sock, r.bytes ≠ [] →
    s.inQ.curWriteOffset + r.bytes.length < 2 ^ 64 ∧
    ((∃ ev ∈ (env.parser.execute s.parser r.bytes).2.1, usesBases s.given.bodyAt ev = true) →
      BasesRight env s r.bytes.length) ∧
    BodyInRow s.inQ.curWriteOffset s.given.bodyAt (env.parser.execute s.parser r.bytes).2.1

/-- The condition on a step. -/
def OffsetsOk (env : SessionEnv σ) (s : Session σ) : Act → Prop
  | .read t => ReadRight env s t
  | _ => True

instance (s : Session σ) (t : ReadTurn) : Decidable (ReadRight env s t) :=
  inferInstanceAs (Decidable (∀ r ∈ Nconn.ncRead s.inQ s.pending t.sock, r.bytes ≠ [] →
    s.inQ.curWriteOffset + r.bytes.length < 2 ^ 64 ∧
    ((∃ ev ∈ (env.parser.execute s.parser r.bytes).2.1, usesBases s.given.bodyAt ev = true) →
      BasesRight env s r.bytes.length) ∧
    BodyInRow s.inQ.curWriteOffset s.given.bodyAt (env.parser.execute s.parser r.bytes).2.1))

instance (s : Session σ) : ∀ a, Decidable (OffsetsOk env s a)
  | .read t => inferInstanceAs (Decidable (ReadRight env s t))
  | .event _ _ => .isTrue trivial
  | .stopped => .isTrue trivial
  | .accept _ _ => .isTrue trivial
  | .write _ => .isTrue trivial
  | .top => .isTrue trivial
  | .respond _ _ => .isTrue trivial

/-- The invariant: the record is right in the current queue, and was right whenever a request was
handled. -/
def OffsetsInv (i : Input σ) : Prop :=
  (∃ a, Nbq.Rep i.inQ a ∧ Recorded a.contents i.rqst i.given) ∧
    ∀ x ∈ i.handled, Faithful x.inQ x.rqst x.given

lemma Recorded.of_expect {c : List UInt8} {h : Hmsg} {g : Given} (hr : Recorded c h g) (e : Bool) :
    Recorded c { h with expect := e } g :=
  ⟨hr.type, hr.bodyAt, hr.url, hr.keys, hr.vals, hr.body⟩

lemma OffsetsInv.dispatch {s s' : Session σ} {a : Answer} (hi : OffsetsInv s.input)
    (h : s.dispatch env a = some s') : OffsetsInv s'.input := by
  obtain ⟨⟨b, hrep, hrec⟩, hall⟩ := hi
  rcases dispatch_spec h with ⟨-, rfl⟩ | ⟨q, url, ans, -, hurl, -, hs'⟩
  · exact ⟨⟨b, hrep, hrec⟩, hall⟩
  have hall' : ∀ x ∈ s.handled ++ [⟨s.rqst, s.inQ, s.given⟩], Faithful x.inQ x.rqst x.given := by
    intro x hx
    rcases List.mem_append.mp hx with hx | hx
    · exact hall x hx
    · obtain rfl := List.mem_singleton.mp hx
      exact hrec.faithful hrep
  obtain ⟨b', hrep', hc, -⟩ := hrep.getUrl hurl
  rcases hs' with rfl | rfl
  · exact ⟨⟨b', hrep', hc ▸ hrec⟩, hall'⟩
  · exact ⟨⟨.empty, hrep'.resetWrite, recorded_init _ _⟩, hall'⟩

lemma OffsetsInv.finishRead {s s' : Session σ} {t : ReadTurn} (hi : OffsetsInv s.input)
    (h : s.finishRead env t = some s') : OffsetsInv s'.input := by
  obtain ⟨⟨b, hrep, hrec⟩, hall⟩ := hi
  obtain ⟨out, e, -, h⟩ := finishRead_spec h
  refine OffsetsInv.dispatch ?_ h
  exact ⟨⟨b, hrep, Recorded.of_expect hrec e⟩, hall⟩

/-- **A right read keeps the record right.** -/
lemma OffsetsInv.readTurn (hP : InBounds env.parser) {s s' : Session σ} {t : ReadTurn}
    (hi : OffsetsInv s.input) (hbased : Based env.bsize s.input) (hok : ReadRight env s t)
    (h : s.readTurn env t = some s') : OffsetsInv s'.input := by
  obtain ⟨⟨b, hrep, hrec⟩, hall⟩ := hi
  obtain ⟨r, hr, hcases⟩ := readTurn_spec h
  rcases hrep.ncRead hr with ⟨hnil, -, hrep'⟩ | ⟨-, hne, -, hrep'⟩
  · -- nothing was read
    have hi' : OffsetsInv (input { s with inQ := r.q, pending := r.pending }) :=
      ⟨⟨b, hrep', hrec⟩, hall⟩
    rcases hcases with ⟨-, n, c, rfl⟩ | ⟨-, -, hfin⟩ | ⟨-, hne, -⟩
    · exact hi'
    · exact hi'.finishRead hfin
    · exact absurd hnil hne
  · rcases hcases with ⟨-, n, c, rfl⟩ | ⟨-, hnil, -⟩ | ⟨-, -, s₁, parsed, hparse, hrest⟩
    · exact ⟨⟨_, hrep', hrec.append r.bytes⟩, hall⟩
    · exact absurd hnil hne
    obtain ⟨base, hbase, -, hin, -⟩ := parseRead_spec hparse
    obtain ⟨hfit, huse, hrow⟩ := hok r hr hne
    have hoff : s.inQ.curWriteOffset = b.contents.length := hrep.curWriteOffset
    have hright := fun hev => hbased.place hr hne (huse hev) hbase
    rw [hoff] at hfit hrow hin
    have hrec₀ : Recorded b.contents { s.rqst with curBuf := base } s.given :=
      ⟨hrec.type, hrec.bodyAt, hrec.url, hrec.keys, hrec.vals, hrec.body⟩
    have hrec₁ := (hrec₀.append r.bytes).onEvents hfit
      (fun hev => (hright hev).trans (by rw [hoff]))
      (fun k off len hm => hP s.parser r.bytes k off len hm) hrow
    have hi₁ : OffsetsInv s₁.input := by
      rw [hin]
      refine ⟨⟨_, hrep', ?_⟩, hall⟩
      exact ⟨hrec₁.type, hrec₁.bodyAt, hrec₁.url, hrec₁.keys, hrec₁.vals, hrec₁.body⟩
    rcases hrest with ⟨-, s₂, hq, rfl⟩ | ⟨-, hfin⟩
    · obtain ⟨q, -, rfl⟩ := queueApiResp_spec hq
      exact hi₁
    · exact hi₁.finishRead hfin

lemma OffsetsInv.step (hP : InBounds env.parser) {s s' : Session σ} {a : Act}
    (hi : OffsetsInv s.input) (hbased : BasedUnlessDone env s) (hok : OffsetsOk env s a)
    (h : s.step env a = some s') : OffsetsInv s'.input := by
  rcases step_cases h with ⟨n, c, g, -, rfl⟩ | ⟨i, r, rfl, -, hq⟩ | ⟨t, rfl, hc, hr⟩ |
    ⟨t, rfl, -, hw⟩
  · exact hi
  · obtain ⟨q, -, rfl⟩ := queueApiResp_spec hq
    exact hi
  · exact hi.readTurn hP (hbased (by rw [hc]; decide)) hok hr
  · obtain ⟨q, st, out, -, hcases⟩ := writeTurn_spec hw
    rcases hcases with ⟨n, c, rfl⟩ | ⟨-, -, shutdown, u, -, -, rfl⟩ | ⟨-, xs, q', n, -, rfl⟩
    · exact hi
    · rcases respDone_spec env shutdown q { s with outQ := some q, sent := s.sent ++ out, ups := u }
        with he | ⟨-, he⟩
      · rw [he]
        exact hi
      · rw [he]
        obtain ⟨⟨b, hrep, -⟩, hall⟩ := hi
        exact ⟨⟨b, hrep, recorded_init _ _⟩, hall⟩
    · exact hi

end Session

/-- **Recorded offsets.**  In every run in which every read is right, every pair that is recorded,
and every pair that was recorded when a request was handled, designates in the queue the bytes its
callback was given. -/
theorem recorded_offsets_designate {σ : Type} (env : SessionEnv σ) (hP : InBounds env.parser)
    (h0 : 0 < env.bsize) (hb : env.bsize < 2 ^ 31) (stream : List UInt8) (s : Session σ)
    (h : ((Session.machine env stream).guarded (Session.OffsetsOk env)).Reachable s) :
    Faithful s.inQ s.rqst s.given ∧ ∀ x ∈ s.handled, Faithful x.inQ x.rqst x.given := by
  have hi : Session.BasedUnlessDone env s ∧ Session.OffsetsInv s.input := by
    refine h.invariant (P := fun s => Session.BasedUnlessDone env s ∧ Session.OffsetsInv s.input)
      ?_ ?_
    · rintro s rfl
      exact ⟨Session.based_of_reachable h0 hb (.start rfl), ⟨.empty, Nbq.rep_init h0 hb,
        recorded_init _ false⟩, by simp [Session.start, Session.input]⟩
    · rintro s a t ⟨hbased, hs⟩ ⟨hok, hst⟩
      exact ⟨hbased.step hst, hs.step hP hbased hok hst⟩
  obtain ⟨-, ⟨a, hrep, hrec⟩, hall⟩ := hi
  exact ⟨hrec.faithful hrep, hall⟩

/-! ## Runs -/

lemma scripted_inBounds (m : Message) : InBounds (scripted m) := by
  intro st bytes k off len he
  have := scriptLoop_inBounds (Nat.min_le_right st m.bytes.length) he
  omega

/-- The connection is accepted and then read in pieces of the given sizes; the last read finds
nothing. -/
def readsOf (sizes : List ℕ) : List Session.Act :=
  [.event .read false, .accept .ok false] ++
    (sizes ++ [0]).map fun k => .read ⟨.data k, fun i => 4096 * i, .accept 0, .deferred⟩

/-- Two reads into the first block. -/
theorem recorded_offsets_designate_getAb : ∃ s : Session ℕ,
    ((Session.machine getAbEnv getAb.bytes).guarded (Session.OffsetsOk getAbEnv)).Reachable s ∧
    s.handled.map (fun x => (x.given.url, x.given.keys, x.given.vals))
      = [([47, 97, 98], [[72, 111, 115, 116]], [[120]])] ∧
    ∀ x ∈ s.handled, Faithful x.inQ x.rqst x.given := by
  have hrun : ((readsOf [18, 11]).foldlM
      (fun s a => if Session.OffsetsOk getAbEnv s a then s.step getAbEnv a else none)
      (Session.start getAbEnv getAb.bytes)).map
        (fun s => s.handled.map fun x => (x.given.url, x.given.keys, x.given.vals))
      = some [([47, 97, 98], [[72, 111, 115, 116]], [[120]])] := by decide +kernel
  obtain ⟨s, hs, hh⟩ := Option.map_eq_some_iff.mp hrun
  have hreach : ((Session.machine getAbEnv getAb.bytes).guarded
      (Session.OffsetsOk getAbEnv)).Reachable s :=
    .guarded_foldlM (fun _ _ _ he => he) rfl hs
  exact ⟨s, hreach, hh, (recorded_offsets_designate getAbEnv (scripted_inBounds getAb) (by decide)
    (by decide) getAb.bytes s hreach).2⟩

/-- A third read: the name of the header is recorded three bytes, the size of the first read, too
far to the right. -/
theorem third_read_misplaces : ∃ s : Session ℕ,
    (Session.machine getAbEnv getAb.bytes).Reachable s ∧
    ∃ x ∈ s.handled, x.rqst.pHListKey = [⟨21, 4⟩] ∧ x.given.keys = [[72, 111, 115, 116]] ∧
      ¬ Faithful x.inQ x.rqst x.given := by
  have hrun : ((readsOf [3, 15, 11]).foldlM (fun s a => Session.step getAbEnv s a)
      (Session.start getAbEnv getAb.bytes)).map
        (fun s => s.handled.map fun x =>
          (x.rqst.pHListKey, x.given.keys, (x.inQ.copyPart 21 4).map Prod.snd))
      = some [([⟨21, 4⟩], [[72, 111, 115, 116]], some [116, 58, 32, 120])] := by decide +kernel
  obtain ⟨s, hs, hh⟩ := Option.map_eq_some_iff.mp hrun
  refine ⟨s, .foldlM (fun s a t he => he) (.start rfl) hs, ?_⟩
  obtain ⟨x, hx, he⟩ := List.mem_map.mp (hh ▸ List.mem_singleton_self _)
  obtain ⟨hkey, hrest⟩ := Prod.mk.inj he
  obtain ⟨hgiven, hcopy⟩ := Prod.mk.inj hrest
  refine ⟨x, hx, hkey, hgiven, fun hf => ?_⟩
  have hd := hf.keys
  rw [hkey, hgiven] at hd
  obtain ⟨q', hq'⟩ := (List.forall₂_cons.mp hd).1
  rw [hq'] at hcopy
  simp at hcopy

end Is2
