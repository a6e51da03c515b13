import Is2.Nconn.Pipe

/-!
# Back-pressure between the upstream and the client

The queue between an upstream session and a client session has a limit.  When `nc_read` finds the
queue at the limit, the upstream session sets `m_again`, and from then on it returns from every
readable event at once.  The client's write path was meant to clear the flag; the code that would do
so is compiled out, so the flag stays.

* `Exchange` — one proxied exchange: the queue, the flag, and which of the two event handlers runs.
  The handlers run to their end on one thread.
* `again_implies_at_limit` — as long as the client, once the flag is set, takes no byte from below
  the limit, a set flag means a queue at its limit.
* `again_below_limit` — a client that takes the queue's three bytes leaves the upstream session
  deaf with an empty queue.
-/

namespace Is2

/-- Which handler runs; `over` when the exchange has ended on one of the two sides. -/
inductive Exchange.Ctl where
  | waiting
  | reading
  | writing
  | over
deriving DecidableEq, Repr

/-- A proxied exchange: `m_in_q` of the upstream session, which is `m_out_q` of the client session,
and `m_again`. -/
structure Exchange where
  q : Nbq
  again : Bool
  ctl : Exchange.Ctl
deriving DecidableEq, Repr

namespace Exchange

/-- The events, and the turns of their loops with the answers of the sockets.  `ends` says that with
these bytes the response is complete or cannot be parsed. -/
inductive Act where
  | readable
  | ncRead (pending : List UInt8) (sock : SockRead) (ends : Bool)
  | writeable
  | ncWrite (sock : SockWrite)
deriving DecidableEq, Repr

/-- What `ncread` of the TCP and TLS connections returns. -/
def FromSocket : SockRead → Prop
  | .data _ => True
  | .status st => st = .again ∨ st = .eof ∨ st = .error

instance : DecidablePred FromSocket
  | .data _ => isTrue trivial
  | .status _ => inferInstanceAs (Decidable (_ ∨ _))

/-- The upstream session after `nc_read`. -/
def afterRead (s : Exchange) (r : NcRead) (ends : Bool) : Exchange :=
  match r.status with
  | .readUnavailable => { q := r.q, again := true, ctl := .waiting }
  | .again => { s with q := r.q, ctl := .waiting }
  | .ok => { s with q := r.q, ctl := if ends then .over else .reading }
  | _ => { s with q := r.q, ctl := .over }

/-- The client session after `nc_write`. -/
def afterWrite (s : Exchange) (q : Nbq) : NcStatus → Exchange
  | .ok => { s with q := q, ctl := if q.readAvail = 0 then .waiting else .writing }
  | .again => { s with q := q, ctl := .waiting }
  | _ => { s with q := q, ctl := .over }

/-- One event or one turn. -/
def run (s : Exchange) : Act → Option Exchange
  | .readable =>
      if s.ctl = .waiting then
        -- skip reads for sessions stuck in again state
        if s.again then some s else some { s with ctl := .reading }
      else none
  | .ncRead pending sock ends =>
      if s.ctl = .reading ∧ FromSocket sock then
        (Nconn.ncRead s.q pending sock).map fun r => s.afterRead r ends
      else none
  | .writeable => if s.ctl = .waiting then some { s with ctl := .writing } else none
  | .ncWrite sock =>
      if s.ctl = .writing then
        (Nconn.ncWrite s.q sock).map fun (q, st, _) => s.afterWrite q st
      else none

/-- Every order of events, on a queue with the limit `limit`. -/
def machine (limit : ℤ) : Machine Exchange Act where
  start s := (∃ a, Nbq.Rep s.q a) ∧ s.q.maxReadQueue = limit ∧ s.again = false ∧ s.ctl = .waiting
  step s a t := s.run a = some t

/-- Once the flag is set, what the client's socket takes leaves the queue at its limit. -/
def Undrained (s : Exchange) : Act → Prop
  | .ncWrite (.accept k) => s.again = true → k = 0 ∨ s.q.maxReadQueue + k ≤ s.q.readAvail
  | _ => True

instance (s : Exchange) : DecidablePred s.Undrained
  | .ncWrite (.accept _) => inferInstanceAs (Decidable (_ → _))
  | .ncWrite (.status _) => isTrue trivial
  | .readable => isTrue trivial
  | .ncRead _ _ _ => isTrue trivial
  | .writeable => isTrue trivial

/-! ## What one call does to the queue's fill -/

lemma ncWrite_length {q q' : Nbq} {k : ℕ} {st : NcStatus} {out : List UInt8}
    (he : Nconn.ncWrite q (.accept k) = some (q', st, out)) : out.length ≤ k := by
  unfold Nconn.ncWrite at he
  split_ifs at he with h0
  · obtain ⟨-, he⟩ := Prod.mk.inj (Option.some.inj he)
    obtain ⟨-, rfl⟩ := Prod.mk.inj he
    exact Nat.zero_le k
  · obtain ⟨avail, -, he⟩ := Option.bind_eq_some_iff.mp he
    simp only at he
    split_ifs at he with hn
    · obtain ⟨-, he⟩ := Prod.mk.inj (Option.some.inj he)
      obtain ⟨-, rfl⟩ := Prod.mk.inj he
      exact Nat.zero_le k
    · obtain ⟨bytes, hload, he⟩ := Option.bind_eq_some_iff.mp he
      obtain ⟨q₁, -, he⟩ := Option.bind_eq_some_iff.mp he
      obtain ⟨q₂, -, he⟩ := Option.bind_eq_some_iff.mp he
      obtain ⟨-, he⟩ := Prod.mk.inj (Option.some.inj he)
      obtain ⟨-, rfl⟩ := Prod.mk.inj he
      rw [Nbq.bReadLoad, if_neg hn] at hload
      obtain ⟨b, -, hload⟩ := Option.bind_eq_some_iff.mp hload
      unfold Nb.load at hload
      split_ifs at hload
      obtain rfl := Option.some.inj hload
      exact (List.length_take_le _ _).trans (Nat.min_le_left _ _)

lemma ncWrite_status {q q' : Nbq} {st st' : NcStatus} {out : List UInt8}
    (he : Nconn.ncWrite q (.status st) = some (q', st', out)) : q' = q := by
  unfold Nconn.ncWrite at he
  split_ifs at he with h0
  · exact (Prod.mk.inj (Option.some.inj he)).1.symm
  · cases st <;> exact (Prod.mk.inj (Option.some.inj he)).1.symm

/-- Only a queue at its limit makes `nc_read` answer `READ_UNAVAILABLE`. -/
lemma atLimit_of_readUnavailable {q : Nbq} {pending : List UInt8} {sock : SockRead} {r : NcRead}
    (hs : FromSocket sock) (he : Nconn.ncRead q pending sock = some r)
    (hr : r.status = .readUnavailable) :
    r.q = q ∧ 0 < q.maxReadQueue ∧ q.maxReadQueue ≤ q.readAvail := by
  unfold Nconn.ncRead at he
  split_ifs at he with hmax
  · obtain rfl := Option.some.inj he
    refine ⟨rfl, ?_⟩
    simpa [Nbq.readAvailIsMaxLimit, Nbq.readAvail] using hmax
  · exfalso
    obtain ⟨⟨q₁, room⟩, -, he⟩ := Option.bind_eq_some_iff.mp he
    cases room with
    | none =>
        obtain rfl := Option.some.inj he
        exact absurd hr (by simp)
    | some avail =>
        cases sock with
        | status st =>
            obtain rfl := Option.some.inj he
            obtain rfl : st = .readUnavailable := hr
            exact absurd hs (by simp [FromSocket])
        | data k =>
            simp only at he
            split_ifs at he
            · obtain rfl := Option.some.inj he
              exact absurd hr (by simp)
            · split at he
              · obtain ⟨b, -, he⟩ := Option.bind_eq_some_iff.mp he
                obtain ⟨q₂, -, he⟩ := Option.bind_eq_some_iff.mp he
                obtain ⟨q₃, -, he⟩ := Option.bind_eq_some_iff.mp he
                obtain rfl := Option.some.inj he
                exact absurd hr (by simp)
              · exact absurd he (by simp)

/-! ## Runs -/

/-- The queue is one with the limit, a set flag means a queue at the limit, and while the upstream
session reads the flag is not set. -/
structure Inv (limit : ℤ) (s : Exchange) : Prop where
  rep : ∃ a, Nbq.Rep s.q a
  limit_eq : s.q.maxReadQueue = limit
  full : s.again = true → 0 < limit ∧ limit ≤ s.q.readAvail
  reading : s.ctl = .reading → s.again = false

variable {limit : ℤ} {s t : Exchange} {a : Act}

lemma Inv.ncRead {pending : List UInt8} {sock : SockRead} {ends : Bool} (h : Inv limit s)
    (he : s.run (.ncRead pending sock ends) = some t) : Inv limit t := by
  simp only [run] at he
  split_ifs at he with hc
  obtain ⟨hctl, hsock⟩ := hc
  obtain ⟨r, hr, rfl⟩ := Option.map_eq_some_iff.mp he
  obtain ⟨a, hrep⟩ := h.rep
  have hrep' : ∃ a, Nbq.Rep r.q a := by
    rcases hrep.ncRead hr with ⟨-, -, hr'⟩ | ⟨-, -, -, hr'⟩
    · exact ⟨_, hr'⟩
    · exact ⟨_, hr'⟩
  have hlim : r.q.maxReadQueue = limit := (Nconn.ncRead_maxReadQueue hr).trans h.limit_eq
  have hagain := h.reading hctl
  have hother : ∀ ctl, Inv limit { s with q := r.q, ctl := ctl } := by
    refine fun ctl => ⟨hrep', hlim, fun ha => ?_, fun _ => hagain⟩
    rw [hagain] at ha
    exact absurd ha (by simp)
  unfold afterRead
  split
  case h_1 hst =>
    obtain ⟨hq, hfull⟩ := atLimit_of_readUnavailable hsock hr hst
    refine ⟨hrep', hlim, fun _ => ?_, fun hc => absurd hc (by simp)⟩
    rw [hq, ← h.limit_eq]
    exact hfull
  case h_2 => exact hother _
  case h_3 => exact hother _
  case h_4 => exact hother _

lemma Inv.ncWrite {sock : SockWrite} (h : Inv limit s) (hok : s.Undrained (.ncWrite sock))
    (he : s.run (.ncWrite sock) = some t) : Inv limit t := by
  simp only [run] at he
  split_ifs at he
  obtain ⟨⟨q, st, out⟩, hr, rfl⟩ := Option.map_eq_some_iff.mp he
  obtain ⟨a, hrep⟩ := h.rep
  obtain ⟨a', hrep', hu⟩ := hrep.ncWrite hr
  have hlim : q.maxReadQueue = limit := (Nconn.ncWrite_maxReadQueue hr).trans h.limit_eq
  have hfull : s.again = true → 0 < limit ∧ limit ≤ q.readAvail := by
    intro ha
    obtain ⟨hpos, hle⟩ := h.full ha
    refine ⟨hpos, ?_⟩
    cases sock with
    | status st' =>
        rw [ncWrite_status hr]
        exact hle
    | accept k =>
        have hlen := congrArg List.length hu
        rw [List.length_append, ← Pipe.readAvail_eq hrep, ← Pipe.readAvail_eq hrep'] at hlen
        have hout := ncWrite_length hr
        have hk := hok ha
        rw [h.limit_eq] at hk
        omega
  have hany : ∀ ctl, ctl ≠ .reading → Inv limit { s with q := q, ctl := ctl } :=
    fun ctl hctl => ⟨⟨a', hrep'⟩, hlim, hfull, fun hc => absurd hc hctl⟩
  show Inv limit (s.afterWrite q st)
  unfold afterWrite
  split
  · refine hany _ ?_
    split_ifs <;> simp
  · exact hany _ (by simp)
  · exact hany _ (by simp)

lemma Inv.run (h : Inv limit s) (hok : s.Undrained a) (he : s.run a = some t) : Inv limit t := by
  cases a with
  | readable =>
      simp only [Exchange.run] at he
      split_ifs at he with hc ha
      · obtain rfl := Option.some.inj he
        exact h
      · obtain rfl := Option.some.inj he
        exact { h with reading := fun _ => by simpa using ha }
  | writeable =>
      simp only [Exchange.run] at he
      split_ifs at he
      obtain rfl := Option.some.inj he
      exact { h with reading := fun hc => absurd hc (by simp) }
  | ncRead pending sock ends => exact h.ncRead he
  | ncWrite sock => exact h.ncWrite hok he

/-- **A set flag means a full queue, as long as the client does not drain it.**  In every run in
which the client's socket, once `m_again` is set, takes no byte from below the limit, an upstream
session with the flag set has its queue still at the limit. -/
theorem again_implies_at_limit (limit : ℤ) (s : Exchange)
    (h : ((machine limit).guarded Undrained).Reachable s) (ha : s.again = true) :
    0 < limit ∧ limit ≤ s.q.readAvail := by
  have hinv : Inv limit s := by
    refine Machine.Reachable.invariant ?_ ?_ h
    · rintro s ⟨hrep, hlim, hagain, hctl⟩
      refine ⟨hrep, hlim, fun ha => ?_, fun _ => hagain⟩
      rw [hagain] at ha
      exact absurd ha (by simp)
    · exact fun s a t hs he => hs.run he.1 he.2
  exact hinv.full ha

/-- A new queue with blocks of four bytes and a limit of three. -/
def narrow : Exchange := ⟨{ Nbq.init 4 with maxReadQueue := 3 }, false, .waiting⟩

lemma narrow_start : (machine 3).start narrow := by
  have hrep : Nbq.Rep (Nbq.init 4) .empty := Nbq.rep_init (by decide) (by decide)
  obtain ⟨r, w, hwf, hf, hc, hr⟩ := hrep
  exact ⟨⟨_, r, w, { hwf with }, { hf with }, hc, hr⟩, rfl, rfl, rfl⟩

/-- The upstream fills the queue, and the client's socket is full too. -/
theorem again_implies_at_limit_full : ∃ s : Exchange, s.ctl = .waiting ∧ s.again = true ∧
    (0 < (3 : ℤ) ∧ (3 : ℤ) ≤ s.q.readAvail) := by
  let acts : List Act := [.readable, .ncRead [1, 2, 3, 4, 5] (.data 9) false,
    .ncRead [4, 5] (.data 9) false, .writeable, .ncWrite (.status .again), .readable]
  have hrun : (acts.foldlM (fun (s : Exchange) a => if s.Undrained a then s.run a else none)
      narrow).map (fun s => (s.ctl, s.again)) = some (.waiting, true) := by
    decide +kernel
  obtain ⟨s, hs, hobs⟩ := Option.map_eq_some_iff.mp hrun
  obtain ⟨hw, ha⟩ := Prod.mk.inj hobs
  have h : ((machine 3).guarded Undrained).Reachable s :=
    Machine.Reachable.guarded_foldlM (fun _ _ _ he => he) narrow_start hs
  exact ⟨s, hw, ha, again_implies_at_limit 3 s h ha⟩

/-- The upstream fills the queue and waits; the client then takes all of it. -/
theorem again_below_limit : ∃ s : Exchange, (machine 3).Reachable s ∧ s.ctl = .waiting ∧
    s.again = true ∧ ¬ (3 : ℤ) ≤ s.q.readAvail := by
  let acts : List Act := [.readable, .ncRead [1, 2, 3, 4, 5] (.data 9) false,
    .ncRead [4, 5] (.data 9) false, .writeable, .ncWrite (.accept 9), .readable]
  have hrun : (acts.foldlM run narrow).map (fun s => (s.ctl, s.again, s.q.readAvail)) =
      some (.waiting, true, 0) := by
    decide +kernel
  obtain ⟨s, hs, hobs⟩ := Option.map_eq_some_iff.mp hrun
  obtain ⟨hw, hobs⟩ := Prod.mk.inj hobs
  obtain ⟨ha, hq⟩ := Prod.mk.inj hobs
  refine ⟨s, Machine.Reachable.foldlM (fun _ _ _ he => he) (.start narrow_start) hs, hw, ha, ?_⟩
  rw [hq]
  decide

end Exchange

end Is2
