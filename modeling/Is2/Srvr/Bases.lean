import Is2.Srvr.SessionSteps

/-!
# The bases of a parse

A callback gets a pointer and records an offset: the pointer, minus the start of the block that is
being written, plus `m_cur_off`.  The session sets the first base before it parses, and the second
one behind the parse, to the write offset from before the read.  So during a parse `m_cur_off` is
the write offset from before the *previous* read, or 0 if nothing was parsed since the last `init`;
and the block is the one after the bytes were counted, which is the next block if there is one and
the read filled its own.

`BasesRight` says of a read when the two together are right: in terms of how much the queue holds,
the size and the number of its blocks, and the sizes of this read and of the one before it.  A
callback for body bytes uses the bases only when it records the first stretch (`usesBases`).
-/

namespace Is2

/-! ## Callbacks -/

/-- The call of a data callback. -/
def dataCbOf (addr : ℤ) (bytes : List UInt8) : ParserEvent → Option DataCb
  | .data kind off len => some ⟨kind, addr + off, Cr.slice ⟨off, len⟩ bytes⟩
  | .complete _ => none

/-- The ends of messages among the callbacks, with what they say on keeping the connection. -/
def endOf : ParserEvent → Option Bool
  | .complete keepAlive => some keepAlive
  | .data _ _ _ => none

section Callbacks

variable {buf addr : ℤ} {bytes : List UInt8}

lemma onData_hpOnMessageComplete (h : Hmsg) (cb : DataCb) (keepAlive : Bool) :
    (h.hpOnMessageComplete keepAlive).onData cb = (h.onData cb).hpOnMessageComplete keepAlive := by
  obtain ⟨kind, ptr, b⟩ := cb
  cases kind with
  | headerField | headerValue => rfl
  | url =>
      change (if h.type = .rqst then _ else _) =
        Hmsg.hpOnMessageComplete (if h.type = .rqst then _ else _) keepAlive
      split <;> rfl
  | status =>
      change (if h.type = .resp then _ else _) =
        Hmsg.hpOnMessageComplete (if h.type = .resp then _ else _) keepAlive
      split <;> rfl
  | body =>
      change (if h.pBody.off = 0 then _ else _) =
        Hmsg.hpOnMessageComplete (if h.pBody.off = 0 then _ else _) keepAlive
      split <;> rfl

lemma foldl_onData_hpOnMessageComplete (cbs : List DataCb) (h : Hmsg) (keepAlive : Bool) :
    cbs.foldl Hmsg.onData (h.hpOnMessageComplete keepAlive) =
      (cbs.foldl Hmsg.onData h).hpOnMessageComplete keepAlive := by
  induction cbs generalizing h with
  | nil => rfl
  | cons cb cbs ih => rw [List.foldl_cons, List.foldl_cons, onData_hpOnMessageComplete, ih]

/-- The data callbacks and the ends of messages do not depend on each other. -/
lemma foldl_onEvent (evs : List ParserEvent) (h : Hmsg) :
    evs.foldl (Hmsg.onEvent addr bytes) h = (evs.filterMap endOf).foldl Hmsg.hpOnMessageComplete
      ((evs.filterMap (dataCbOf addr bytes)).foldl Hmsg.onData h) := by
  induction evs generalizing h with
  | nil => rfl
  | cons ev evs ih =>
      rw [List.foldl_cons, ih]
      cases ev with
      | data kind off len => rfl
      | complete keepAlive =>
          rw [Hmsg.onEvent, foldl_onData_hpOnMessageComplete]
          rfl

lemma foldl_onEventGiven_rqst (evs : List ParserEvent) {lo : ℕ} (hg : Hmsg × Given) :
    (evs.foldl (onEventGiven buf lo bytes) hg).1 = evs.foldl (Hmsg.onEvent buf bytes) hg.1 := by
  induction evs generalizing hg with
  | nil => rfl
  | cons ev evs ih =>
      rw [List.foldl_cons, List.foldl_cons, ih]
      rfl

/-- The record is complete as soon as an end was reported. -/
lemma foldl_onEvent_complete (evs : List ParserEvent) (h : Hmsg) :
    (evs.foldl (Hmsg.onEvent buf bytes) h).complete =
      (h.complete || !(evs.filterMap endOf).isEmpty) := by
  induction evs generalizing h with
  | nil => simp
  | cons ev evs ih =>
      rw [List.foldl_cons, ih, filterMap_cons_toList]
      cases ev with
      | complete ka => simp [Hmsg.onEvent, Hmsg.hpOnMessageComplete, endOf]
      | data kind off len => simp [Hmsg.onEvent, endOf]

lemma onEvent_bases (h : Hmsg) (buf : ℤ) (bytes : List UInt8) (ev : ParserEvent) :
    (h.onEvent buf bytes ev).curBuf = h.curBuf ∧ (h.onEvent buf bytes ev).curOff = h.curOff := by
  cases ev with
  | complete ka => exact ⟨rfl, rfl⟩
  | data kind off len => exact ⟨Hmsg.onData_curBuf _ _, Hmsg.onData_curOff _ _⟩

end Callbacks

/-! ## Which callbacks use the bases -/

/-- Does a callback use the bases, where `body` is the range of the body so far? -/
def usesBases (body : Cr) : ParserEvent → Bool
  | .complete _ => false
  | .data .status _ _ => false
  | .data .body _ _ => body.off = 0
  | .data _ _ _ => true

/-- The range of the body behind a callback for a buffer that is at `lo` in the queue. -/
def bodyAfter (lo : ℕ) (body : Cr) : ParserEvent → Cr
  | .data .body off len => bodyAdd body ⟨lo + off, len⟩
  | _ => body

lemma Given.onEvent_bodyAt (lo : ℕ) (bytes : List UInt8) (g : Given) (ev : ParserEvent) :
    (g.onEvent lo bytes ev).bodyAt = bodyAfter lo g.bodyAt ev := by
  cases ev with
  | complete ka => rfl
  | data kind off len => cases kind <;> rfl

/-- Behind a callback that does not use the bases, no more callbacks do than before it. -/
lemma usesBases_after {lo : ℕ} {body : Cr} {ev ev' : ParserEvent}
    (h : usesBases (bodyAfter lo body ev) ev' = true) :
    usesBases body ev = true ∨ usesBases body ev' = true := by
  cases ev with
  | complete ka => exact .inr h
  | data kind off len =>
      cases kind with
      | body =>
          by_cases h0 : body.off = 0
          · exact .inl (by simpa [usesBases] using h0)
          · rw [bodyAfter, bodyAdd, if_neg h0] at h
            right
            cases ev' with
            | complete ka => exact h
            | data kind' off' len' => cases kind' <;> exact h
      | _ => exact .inr h

section Bodies

variable {buf : ℤ} {lo : ℕ} {bytes : List UInt8} {h : Hmsg} {g : Given}

/-- With right bases a callback records its place in the queue. -/
lemma place_eq {off len : ℕ} (hbase : buf - h.curBuf + h.curOff = (lo : ℤ))
    (hfit : lo + bytes.length < 2 ^ 64) (hb : off + len ≤ bytes.length) :
    h.place (buf + off) (Cr.slice ⟨off, len⟩ bytes) = ⟨lo + off, len⟩ := by
  have hlen : (Cr.slice ⟨off, len⟩ bytes).length = len := Cr.length_slice hb
  rw [Hmsg.place, Hmsg.calcOffset_eq (n := lo + off) (by push_cast; omega) (by omega), hlen]

/-- The range of the body is recorded, if the bases are right where they are used. -/
lemma onEvent_body (hbody : h.pBody = g.bodyAt) {ev : ParserEvent}
    (hbase : usesBases g.bodyAt ev = true → buf - h.curBuf + h.curOff = (lo : ℤ))
    (hfit : lo + bytes.length < 2 ^ 64)
    (hb : ∀ k off len, ev = .data k off len → off + len ≤ bytes.length) :
    (h.onEvent buf bytes ev).pBody = (g.onEvent lo bytes ev).bodyAt := by
  rw [g.onEvent_bodyAt]
  cases ev with
  | complete ka => exact hbody
  | data kind off len =>
      have hlen := hb kind off len rfl
      cases kind with
      | body =>
          simp only [Hmsg.onEvent, Hmsg.onData, Hmsg.hpOnBody, bodyAfter, bodyAdd, hbody]
          split_ifs with h0
          · exact place_eq (hbase (by simp [usesBases, h0])) hfit hlen
          · exact congrArg (fun n => Cr.mk g.bodyAt.off (g.bodyAt.len + n)) (Cr.length_slice hlen)
      | _ => exact (Hmsg.onData_pBody (by simp)).trans hbody

lemma foldl_onEvent_body {evs : List ParserEvent} (hbody : h.pBody = g.bodyAt)
    (hbase : (∃ ev ∈ evs, usesBases g.bodyAt ev = true) → buf - h.curBuf + h.curOff = (lo : ℤ))
    (hfit : lo + bytes.length < 2 ^ 64)
    (hb : ∀ k off len, .data k off len ∈ evs → off + len ≤ bytes.length) :
    (evs.foldl (Hmsg.onEvent buf bytes) h).pBody =
      (evs.foldl (onEventGiven buf lo bytes) (h, g)).2.bodyAt := by
  induction evs generalizing h g with
  | nil => exact hbody
  | cons ev evs ih =>
      obtain ⟨h1, h2⟩ := onEvent_bases h buf bytes ev
      refine ih ?_ ?_ fun k off len hm => hb k off len (List.mem_cons_of_mem _ hm)
      · exact onEvent_body hbody (fun huse => hbase ⟨ev, List.mem_cons_self, huse⟩) hfit
          fun k off len he => hb k off len (by rw [he]; exact List.mem_cons_self)
      · rintro ⟨ev', hmem, huse⟩
        rw [h1, h2]
        rw [g.onEvent_bodyAt] at huse
        rcases usesBases_after huse with huse | huse
        · exact hbase ⟨ev, List.mem_cons_self, huse⟩
        · exact hbase ⟨ev', List.mem_cons_of_mem _ hmem, huse⟩

end Bodies

/-- What was parsed before is not touched by the callbacks. -/
lemma foldl_onEventGiven_bufs (evs : List ParserEvent) {buf : ℤ} {lo : ℕ} {bytes : List UInt8}
    (hg : Hmsg × Given) : (evs.foldl (onEventGiven buf lo bytes) hg).2.bufs = hg.2.bufs := by
  induction evs generalizing hg with
  | nil => rfl
  | cons ev evs ih =>
      rw [List.foldl_cons, ih]
      cases ev with
      | complete ka => rfl
      | data kind off len => cases kind <;> rfl

/-! ## The copy of the URL -/

namespace Nbq

variable {q q' : Nbq} {a : SeekQueue UInt8} {bytes : List UInt8}

lemma Rep.read_bsize (h : Rep q a) {len n : ℕ} (he : q.read len = some (q', bytes, n)) :
    q'.bsize = q.bsize := by
  obtain ⟨r, w, hwf, -, -, -⟩ := h
  obtain ⟨q₁, r₁, he₁, -, hr, -⟩ := hwf.read len
  rw [he] at he₁
  obtain ⟨rfl, -⟩ := Prod.mk.inj (Option.some.inj he₁)
  exact hr.bsize

/-- `get_url` reads from the queue, and leaves its contents. -/
lemma Rep.getUrl (h : Rep q a) {m : Hmsg} (he : m.getUrl q = some (q', bytes)) :
    ∃ a', Rep q' a' ∧ a'.contents = a.contents ∧ q'.bsize = q.bsize := by
  unfold Hmsg.getUrl at he
  split_ifs at he with h0
  · obtain ⟨rfl, -⟩ := Prod.mk.inj (Option.some.inj he)
    exact ⟨a, h, rfl, rfl⟩
  obtain ⟨q₁, he₁, h₁⟩ := h.readSeek m.pUrl.off
  obtain ⟨q₂, he₂, h₂⟩ := h₁.read m.pUrl.len
  have hseek : q₁.bsize = q.bsize := by
    obtain ⟨⟨q₃, xs, n⟩, hread, hq⟩ := Option.bind_eq_some_iff.mp he₁
    obtain ⟨rfl, -⟩ := Prod.mk.inj (Option.some.inj hq)
    exact h.resetRead.read_bsize hread
  obtain ⟨⟨q₃, xs, n⟩, hfrom, hq⟩ := Option.bind_eq_some_iff.mp he
  obtain ⟨rfl, -⟩ := Prod.mk.inj (Option.some.inj hq)
  obtain ⟨⟨q₄, k⟩, hk, hread⟩ := Option.bind_eq_some_iff.mp hfrom
  rw [he₁] at hk
  obtain ⟨rfl, -⟩ := Prod.mk.inj (Option.some.inj hk)
  obtain ⟨rfl, -⟩ := Prod.mk.inj (Option.some.inj (he₂.symm.trans hread))
  exact ⟨_, h₂, rfl, (h₁.read_bsize he₂).trans hseek⟩

end Nbq

/-! ## Right bases -/

namespace Session

variable {σ : Type} {env : SessionEnv σ} {s s' : Session σ}

/-- The size of the read before, or all that the queue holds if nothing was parsed since the last
`init`. -/
def lastRead (s : Session σ) : ℕ :=
  s.given.bufs.getLast?.elim s.inQ.curWriteOffset fun b => b.hi - b.lo

/-- The bases are right for a read of `n` bytes: the block being written holds what the read before
brought and nothing else, and this read does not fill it in front of another block. -/
def BasesRight (env : SessionEnv σ) (s : Session σ) (n : ℕ) : Prop :=
  s.inQ.curWriteOffset % env.bsize = s.lastRead ∧
    ¬ (s.inQ.curWriteOffset % env.bsize + n = env.bsize ∧
      s.inQ.curWriteOffset / env.bsize + 1 < s.inQ.q.length)

instance (s : Session σ) (n : ℕ) : Decidable (BasesRight env s n) :=
  inferInstanceAs (Decidable (_ ∧ ¬ (_ ∧ _)))

/-- The input queue, and the base that was left by the last parse. -/
structure Based (bsize : ℕ) (i : Input σ) : Prop where
  rep : ∃ a, Nbq.Rep i.inQ a
  size : i.inQ.bsize = bsize
  ready : i.inQ.Ready
  base : i.given.bufs.getLast?.elim (i.rqst.curOff = 0) fun b =>
    i.rqst.curOff = b.lo ∧ b.lo ≤ b.hi ∧ b.hi = i.inQ.curWriteOffset

lemma Based.curOff {bsize : ℕ} (h : Based bsize s.input) :
    s.rqst.curOff + s.lastRead = s.inQ.curWriteOffset := by
  have hb := h.base
  simp only [input] at hb
  rw [lastRead]
  cases hl : s.given.bufs.getLast? with
  | none =>
      rw [hl] at hb
      exact (congrArg (· + _) hb).trans (Nat.zero_add _)
  | some b =>
      rw [hl] at hb
      obtain ⟨h1, h2, h3⟩ := hb
      simp only [Option.elim_some]
      omega


/-- The base that a parse leaves is where its buffer starts. -/
lemma Based.parsed {bsize : ℕ} (h : Based bsize s.input) {base : ℤ} {layout : ℕ → ℤ}
    {t : ReadTurn} {r : NcRead} (hr : Nconn.ncRead s.inQ s.pending t.sock = some r)
    (hne : r.bytes ≠ []) :
    Based bsize (parsedInput env base layout s.inQ.curWriteOffset r
      (input { s with inQ := r.q, pending := r.pending })) := by
  obtain ⟨a, hrep⟩ := h.rep
  obtain ⟨hsize, hready, -⟩ := hrep.ncRead_place h.ready hr
  obtain ⟨-, -, -, hrep'⟩ := (hrep.ncRead hr).resolve_left fun hnil => hne hnil.1
  refine ⟨⟨_, hrep'⟩, hsize.trans h.size, hready, ?_⟩
  have hw : s.inQ.curWriteOffset = a.contents.length := hrep.curWriteOffset
  simp only [parsedInput, List.getLast?_append, List.getLast?_singleton, Option.some_or,
    Option.elim_some]
  refine ⟨trivial, Nat.le_add_right _ _, ?_⟩
  rw [hrep'.curWriteOffset, hw]
  exact List.length_append.symm

/-- The session is not done, or its input queue and its bases are in order. -/
def BasedUnlessDone (env : SessionEnv σ) (s : Session σ) : Prop :=
  s.ncState ≠ .done → Based env.bsize s.input

lemma BasedUnlessDone.finishRead {t : ReadTurn} (hi : Based env.bsize s.input)
    (h : s.finishRead env t = some s') : BasedUnlessDone env s' := by
  obtain ⟨out, e, -, h⟩ := finishRead_spec h
  rcases dispatch_spec h with ⟨-, rfl⟩ | ⟨q, url, ans, -, hurl, -, rfl | rfl⟩
  · exact fun _ => ⟨hi.rep, hi.size, hi.ready, hi.base⟩
  · exact fun hnd => absurd rfl hnd
  · intro _
    obtain ⟨a, hrep⟩ := hi.rep
    obtain ⟨a', hrep', -, hsize⟩ := hrep.getUrl hurl
    refine ⟨⟨_, hrep'.resetWrite⟩, ?_, ?_, rfl⟩
    · exact hsize.trans hi.size
    · obtain ⟨r, w, -, hf, -⟩ := hrep'
      exact hf.ready_resetWrite

lemma BasedUnlessDone.readTurn {t : ReadTurn} (hi : Based env.bsize s.input)
    (h : s.readTurn env t = some s') : BasedUnlessDone env s' := by
  obtain ⟨r, hr, hcases⟩ := readTurn_spec h
  obtain ⟨a, hrep⟩ := hi.rep
  have hnothing : r.bytes = [] →
      Based env.bsize (input { s with inQ := r.q, pending := r.pending }) := by
    intro hnil
    obtain ⟨hsize, hready, -⟩ := hrep.ncRead_place hi.ready hr
    obtain ⟨-, -, hrep'⟩ := (hrep.ncRead hr).resolve_right fun hne => hne.2.1 hnil
    refine ⟨⟨_, hrep'⟩, hsize.trans hi.size, hready, ?_⟩
    have hw : r.q.curWriteOffset = s.inQ.curWriteOffset :=
      hrep'.curWriteOffset.trans hrep.curWriteOffset.symm
    simp only [input, hw]
    exact hi.base
  rcases hcases with ⟨hst, n, c, rfl⟩ | ⟨-, hnil, hfin⟩ | ⟨-, hne, s₁, parsed, hparse, hrest⟩
  · intro _
    have hnil : r.bytes = [] := by
      rcases hrep.ncRead hr with ⟨hnil, -⟩ | ⟨hok, -⟩
      · exact hnil
      · exact absurd hok hst
    exact hnothing hnil
  · exact .finishRead (hnothing hnil) hfin
  · obtain ⟨base, -, -, hin, -⟩ := parseRead_spec hparse
    have hi₁ : Based env.bsize s₁.input := hin ▸ hi.parsed hr hne
    rcases hrest with ⟨-, s₂, hq, rfl⟩ | ⟨-, hfin⟩
    · obtain ⟨q, -, rfl⟩ := queueApiResp_spec hq
      exact fun _ => hi₁
    · exact .finishRead hi₁ hfin

lemma BasedUnlessDone.step {a : Act} (hi : BasedUnlessDone env s) (h : s.step env a = some s') :
    BasedUnlessDone env s' := by
  rcases step_cases h with ⟨n, c, g, hd, rfl⟩ | ⟨i, r, rfl, -, hq⟩ | ⟨t, rfl, hc, hr⟩ |
    ⟨t, rfl, hc, hw⟩
  · exact fun hnd => hi fun hs => hnd (hd hs)
  · obtain ⟨q, -, rfl⟩ := queueApiResp_spec hq
    exact hi
  · exact .readTurn (hi (by rw [hc]; decide)) hr
  · have hb := hi (by rw [hc]; decide)
    obtain ⟨q, st, out, -, hcases⟩ := writeTurn_spec hw
    rcases hcases with ⟨n, c, rfl⟩ | ⟨-, -, shutdown, u, -, -, rfl⟩ | ⟨-, xs, q', n, -, rfl⟩
    · exact fun _ => hb
    · rcases respDone_spec env shutdown q { s with outQ := some q, sent := s.sent ++ out, ups := u }
        with he | ⟨-, he⟩
      · rw [he]
        exact fun hnd => absurd rfl hnd
      · rw [he]
        exact fun _ => ⟨hb.rep, hb.size, hb.ready, rfl⟩
    · exact fun _ => hb

/-- **The bases**, in every run. -/
lemma based_of_reachable (h0 : 0 < env.bsize) (hb : env.bsize < 2 ^ 31) {stream : List UInt8}
    (h : (machine env stream).Reachable s) : BasedUnlessDone env s := by
  refine h.invariant (P := BasedUnlessDone env) ?_ ?_
  · rintro s rfl _
    exact ⟨⟨_, Nbq.rep_init h0 hb⟩, rfl, Nbq.ready_init _, rfl⟩
  · exact fun s a t hs hst => hs.step hst

/-- **Where the bases are right** the pointer to the buffer is recorded as the write offset from
before the read. -/
lemma Based.place (h : Based env.bsize s.input) {t : ReadTurn} {r : NcRead}
    (hr : Nconn.ncRead s.inQ s.pending t.sock = some r) (hne : r.bytes ≠ [])
    (hright : BasesRight env s r.bytes.length) {layout : ℕ → ℤ} {base : ℤ}
    (hbase : bWriteDataPtr layout r.q = some base) :
    layout r.block + r.pos - base + s.rqst.curOff = s.inQ.curWriteOffset := by
  obtain ⟨a, hrep⟩ := h.rep
  have hsize : s.input.inQ.bsize = env.bsize := h.size
  obtain ⟨hpos, hblock⟩ := (hrep.ncRead_place h.ready hr).2.2 hne
  obtain ⟨hlast, hstay⟩ := hright
  have hw : s.inQ.curWriteOffset = a.contents.length := hrep.curWriteOffset
  have hcur := h.curOff
  rw [hsize] at hpos hblock
  rw [hw] at hlast hcur ⊢
  have hstay : ¬ (a.contents.length % env.bsize + r.bytes.length = env.bsize ∧
      a.contents.length / env.bsize + 1 < s.input.inQ.q.length) := hw ▸ hstay
  rw [bWriteDataPtr, hblock hstay] at hbase
  obtain rfl := Option.some.inj hbase
  omega

end Session

end Is2
