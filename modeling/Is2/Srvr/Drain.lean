import Is2.Core.Machine
import Is2.Srvr.ThreadSteps
import Mathlib.Algebra.Order.BigOperators.Group.Finset
import Mathlib.Data.List.MinMax
import Mathlib.Data.Prod.Lex

/-!
# Does `dequeue_events` return?

`dequeue_events` drains a queue to which the callbacks that it runs add further timers.
`subr_dequeue` is one of them: when the pool has no connection for the subrequest that it took from
its slot, it puts it back and posts itself again, without delay.  Nothing has changed when it runs
next, and it runs next in the same call.  Until another timer is due, the call does not return.

As long as every subrequest that is taken from its slot has room, the call returns.  What it still
has to do is its `load`, and every step makes that less, the first of these or a later one:

* the subrequests in their slots, the jobs of the resolver and the subrequest that is being started;
* the timers with a delay, which weigh the more the sooner they are due; a callback that adds one
  was due before it;
* what the sessions have to send; reading ahead posts the writing callback without a delay, and
  leaves less of the file;
* the events that are queued;
* the passes of the callback that is running.
-/

namespace Is2

namespace Srvr

open Evr

variable {σ : Type} {P : RespParser σ} {cf : TConf} {statUpdateMs T K : ℕ} {th th' : Thread σ}

/-! ## The load of a call -/

/-- The event whose callback is running, and when it was due. -/
def Draining.event : Draining → Option (ℕ × ℕ)
  | .upstream p due => some (p, due)
  | .resolving p due => some (p, due)
  | .writing p due _ => some (p, due)
  | _ => none

/-- An idle timer that fired, or the resolver's, weighs a little less than before. -/
def firedItem (T : ℕ) (srvr : TSrvr σ) : Draining → ℕ
  | .upstream _ due =>
      match srvr.ctl with
      | .running f => if f.caller.isSome then 0 else 2 * (T + 1 - due) - 1
      | _ => 0
  | .resolving _ due => 2 * (T + 1 - due) - 1
  | _ => 0

/-- What a callback that is running still does. -/
def place (srvr : TSrvr σ) : Draining → ℕ
  | .upstream _ _ => if srvr.ctl = .dequeuing then 2 else 1
  | .writing _ _ _ => 2
  | _ => 0

/-- What a loop of a callback still does. -/
def passes (th : Thread σ) : Draining → ℕ
  | .upstream _ _ =>
      match th.srvr.ctl with
      | .running f => th.srvr.rank f
      | _ => 0
  | .writing _ _ c => outRank (th.sessions c)
  | _ => 0

/-- **All that a call of `dequeue_events` still has to do**, the most important first: the
subrequests and the jobs; the timers with a delay; what the first `K` sessions have to send; the
events that are queued; and the passes of the callback that is running. -/
def load (T K : ℕ) (th : Thread σ) (d : Draining) : ℕ ×ₗ ℕ ×ₗ ℕ ×ₗ ℕ ×ₗ ℕ :=
  toLex (th.srvr.work,
    toLex (th.timers.weight (timerItem T) + firedItem T th.srvr d,
      toLex (∑ c ∈ Finset.range K, sessionItem (th.sessions c),
        toLex (3 * th.timers.pq.length + place th.srvr d, passes th d))))

lemma load_lt {d d' : Draining}
    (h : th'.srvr.work < th.srvr.work ∨ th'.srvr.work ≤ th.srvr.work ∧
      (th'.timers.weight (timerItem T) + firedItem T th'.srvr d' <
          th.timers.weight (timerItem T) + firedItem T th.srvr d ∨
        th'.timers.weight (timerItem T) + firedItem T th'.srvr d' ≤
          th.timers.weight (timerItem T) + firedItem T th.srvr d ∧
        (∑ c ∈ Finset.range K, sessionItem (th'.sessions c) <
            ∑ c ∈ Finset.range K, sessionItem (th.sessions c) ∨
          ∑ c ∈ Finset.range K, sessionItem (th'.sessions c) ≤
            ∑ c ∈ Finset.range K, sessionItem (th.sessions c) ∧
          (3 * th'.timers.pq.length + place th'.srvr d' <
              3 * th.timers.pq.length + place th.srvr d ∨
            3 * th'.timers.pq.length + place th'.srvr d' ≤
              3 * th.timers.pq.length + place th.srvr d ∧ passes th' d' < passes th d)))) :
    load T K th' d' < load T K th d := by
  simp only [load, Prod.Lex.toLex_lt_toLex]
  omega

/-! ## One step -/

/-- The timers are in order, there are finitely many sessions, and the event whose callback is
running was due, and is not queued any more. -/
structure Steady (K now : ℕ) (th : Thread σ) (d : Draining) : Prop where
  timers : th.timers.Ok
  bounded : ∀ c, K ≤ c → th.sessions c = none
  event : ∀ p due, d.event = some (p, due) →
    p < th.timers.fresh ∧ p ∉ th.timers.pq ∧ due ≤ now

/-- The subrequest that the next step takes from its slot. -/
def nextTaken (i : Input) (th : Thread σ) (d : Draining) : Option Subr :=
  match d, th.srvr.ctl, i.fate, th.srvr.subrList with
  | .upstream _ _, .dequeuing, none, (_, some s) :: _ =>
      if th.srvr.subrListSize = 0 ∨ i.stopped then none else th.srvr.subrs s
  | _, _, _, _ => none

/-- If the next step takes a subrequest from its slot, that one has room. -/
def Clean (cf : TConf) (i : Input) (th : Thread σ) (d : Draining) : Prop :=
  ∀ S ∈ nextTaken i th d, th.srvr.Room cf S ⟨i.stopped, i.lookup, i.request⟩

instance (cf : TConf) (i : Input) (th : Thread σ) (d : Draining) : Decidable (Clean cf i th d) :=
  inferInstanceAs (Decidable (∀ S ∈ nextTaken i th d, _))

/-- A step of a call keeps the thread in order; and if a subrequest that it takes from its slot has
room, the call is back or has less to do. -/
def Progress (cf : TConf) (T K : ℕ) (i : Input) (th : Thread σ) (d : Draining)
    (r : Thread σ × Draining) : Prop :=
  Steady K i.now r.1 r.2 ∧
    (Clean cf i th d → (∃ w, r.2 = .returned w) ∨ load T K r.1 r.2 < load T K th d)

section Step

variable {now top p due c : ℕ} {i : Input} {d d' : Draining} {r : Thread σ × Draining}

/-- The callback goes on. -/
lemma Steady.effect {n : ℕ} (h : Steady K now th d) (heff : Effect T n th th')
    (hd : d'.event = d.event) : Steady K now th' d' where
  timers := heff.ok h.timers
  bounded c hc := by
    have := heff.sessions c
    rw [h.bounded c hc] at this
    exact sessionItem_eq_zero.mp (Nat.le_zero.mp this)
  event p due he := by
    obtain ⟨hlt, hp, hdue⟩ := h.event p due (hd ▸ he)
    exact ⟨hlt.trans_le heff.fresh, heff.popped p hlt hp, hdue⟩

/-- The callback is back. -/
lemma Steady.served (h : Steady K now th d) (hp : p ∉ th.timers.pq) :
    Steady K now (served th p).1 (served th p).2 where
  timers := h.timers.free hp
  bounded := h.bounded
  event _ _ he := by cases he

lemma sum_sessions_le {n : ℕ} (heff : Effect T n th th') :
    ∑ c ∈ Finset.range K, sessionItem (th'.sessions c) ≤
      ∑ c ∈ Finset.range K, sessionItem (th.sessions c) :=
  Finset.sum_le_sum fun c _ => heff.sessions c

lemma sum_sessions_lt {n : ℕ} (h : Steady K now th d) (heff : Effect T n th th')
    (hlt : sessionItem (th'.sessions c) < sessionItem (th.sessions c)) :
    ∑ c ∈ Finset.range K, sessionItem (th'.sessions c) <
      ∑ c ∈ Finset.range K, sessionItem (th.sessions c) := by
  have hc : c < K := by
    by_contra hge
    rw [h.bounded c (Nat.not_lt.mp hge)] at hlt
    exact Nat.not_lt_zero _ hlt
  exact Finset.sum_lt_sum (fun c _ => heff.sessions c) ⟨c, Finset.mem_range.mpr hc, hlt⟩

/-- In `subr_dequeue`, or in the timeout of an upstream session. -/
lemma progress_upstream (h : Steady K i.now th (.upstream p due)) (hT : i.now ≤ T)
    (he : upstream P cf i th p due = some r) : Progress cf T K i th (.upstream p due) r := by
  obtain ⟨hlt, hp, hdue⟩ := h.event p due rfl
  unfold upstream at he
  split at he
  case h_1 hctl =>
    obtain rfl := Option.some.inj he
    refine ⟨h.served hp, fun _ => .inr (load_lt ?_)⟩
    have hw := Timers.weight_free (w := timerItem T) hp
    simp only [served, hw, firedItem, hctl, place, reduceCtorEq, if_false]
    have hpq : (th.timers.free p).pq = th.timers.pq := rfl
    rw [hpq]
    omega
  case h_2 hctl =>
    split at he
    case h_1 fate _ =>
      obtain ⟨th', hj, rfl⟩ := Option.map_eq_some_iff.mp he
      obtain ⟨⟨n, heff⟩, hwork⟩ := jobEnds_lt (T := T) hj
      exact ⟨h.effect heff rfl, fun _ => .inr (load_lt (.inl hwork))⟩
    case h_2 hfate =>
      obtain ⟨th', hturn, rfl⟩ := Option.map_eq_some_iff.mp he
      obtain ⟨n, heff⟩ := dequeueTurn_any (T := T) hturn
      refine ⟨h.effect heff rfl, fun hclean => .inr (load_lt ?_)⟩
      have hroom : ∀ m s rest S, th.srvr.subrListSize ≠ 0 → i.stopped = false →
          th.srvr.subrList = (m, some s) :: rest → th.srvr.subrs s = some S →
          th.srvr.Room cf S ⟨i.stopped, i.lookup, i.request⟩ := by
        intro m s rest S hsize hrun hl hS
        refine hclean S ?_
        simp [nextTaken, hctl, hfate, hsize, hrun, hl, hS]
      rcases dequeueTurn_cases hturn hroom with rfl | hwork
      · simp only [TSrvr.work, firedItem, hctl, place, TSrvr.starting, reduceCtorEq, if_true,
          if_false]
        omega
      · exact .inl hwork
  case h_3 f hctl =>
    obtain ⟨th', hpass, rfl⟩ := Option.map_eq_some_iff.mp he
    rcases upsPass_cases (T := T) hctl hpass with
      ⟨htimers, hsess, hmore, hwork, hrank⟩ | ⟨heff, hback, hwork⟩
    · refine ⟨h.effect (effect_of_eq (T := T) htimers fun _ => by rw [hsess]) rfl,
        fun _ => .inr (load_lt ?_)⟩
      simp only [htimers, hsess, firedItem, place, passes, hctl, hmore, reduceCtorEq, if_false]
      omega
    · refine ⟨h.effect heff rfl, fun _ => .inr ?_⟩
      cases hcaller : f.caller with
      | some s =>
          have hlt : th'.srvr.work < th.srvr.work := by
            simp only [TSrvr.starting, hcaller, Option.isSome_some, if_true] at hwork
            omega
          exact load_lt (.inl hlt)
      | none =>
          -- the idle timer was due
          have hweight := heff.weight h.timers
          have hctl' : th'.srvr.ctl = .between := by
            rw [hback, Frame.back, hcaller]
          have hle : th'.srvr.work ≤ th.srvr.work := by
            omega
          refine load_lt (.inr ⟨hle, .inl ?_⟩)
          simp only [firedItem, hctl, hctl', hcaller, Option.isSome_none, Bool.false_eq_true,
            if_false]
          omega
  case h_4 => cases he

/-- In the resolver's callback. -/
lemma progress_resolving (h : Steady K i.now th (.resolving p due)) (hT : i.now ≤ T)
    (he : drainStep P cf statUpdateMs top i th (.resolving p due) = some r) :
    Progress cf T K i th (.resolving p due) r := by
  obtain ⟨hlt, hp, hdue⟩ := h.event p due rfl
  unfold drainStep at he
  simp only at he
  split at he
  case h_1 fate _ =>
    obtain ⟨th', hj, rfl⟩ := Option.map_eq_some_iff.mp he
    obtain ⟨⟨n, heff⟩, hwork⟩ := jobEnds_lt (T := T) hj
    exact ⟨h.effect heff rfl, fun _ => .inr (load_lt (.inl hwork))⟩
  case h_2 =>
    obtain rfl := Option.some.inj he
    have hdns : Rearms T i.now th (th.dnsTimeout i) := rearms_dnsTimeout
    have hp' := hdns.effect.popped p hlt hp
    have hst : Steady K i.now (th.dnsTimeout i) (.resolving p due) := h.effect hdns.effect rfl
    refine ⟨hst.served hp', fun _ => .inr (load_lt (.inr ⟨hdns.work, .inl ?_⟩))⟩
    have hweight := hdns.effect.weight h.timers
    have hw := Timers.weight_free (w := timerItem T) hp'
    simp only [served, hw, firedItem]
    omega

/-- In the writing callback of a session. -/
lemma progress_writing (h : Steady K i.now th (.writing p due c))
    (he : drainStep P cf statUpdateMs top i th (.writing p due c) = some r) :
    Progress cf T K i th (.writing p due c) r := by
  obtain ⟨hlt, hp, -⟩ := h.event p due rfl
  obtain ⟨⟨th', more⟩, hw, rfl⟩ := Option.map_eq_some_iff.mp he
  have hwrote := wrote_writePass (T := T) hw
  have heff := hwrote.quiet.effect
  have hwork := hwrote.quiet.work
  have hweight := heff.weight h.timers
  have hst : Steady K i.now th' (.writing p due c) := h.effect heff rfl
  have hp' := heff.popped p hlt hp
  have hsum := sum_sessions_le (K := K) heff
  simp only at hwork hweight
  cases more with
  | true =>
      refine ⟨hst, fun _ => .inr (load_lt (.inr ⟨hwork, .inr ⟨?_, ?_⟩⟩))⟩
      · simpa [firedItem] using hweight
      · rcases hwrote.progress with hless | ⟨htimers, hrank⟩
        · exact .inl (sum_sessions_lt h heff hless)
        · refine .inr ⟨hsum, .inr ⟨?_, hrank rfl⟩⟩
          simp only at htimers
          simp [htimers, place]
  | false =>
      have hfree := Timers.weight_free (w := timerItem T) hp'
      refine ⟨hst.served hp', fun _ => .inr (load_lt (.inr ⟨hwork, .inr ⟨?_, ?_⟩⟩))⟩
      · simpa [served, firedItem, hfree] using hweight
      · rcases hwrote.progress with hless | ⟨htimers, -⟩
        · have hsum' := sum_sessions_lt h heff hless
          exact .inl hsum'
        · refine .inr ⟨hsum, .inl ?_⟩
          simp only at htimers
          simp [served, Timers.free, htimers, place]

/-- The event at `p` was taken off the queue, and its callback begins. -/
lemma progress_serve {e : Event Callback} (h : Steady K i.now th .loop) (hT : i.now ≤ T)
    (hp : p ∈ th.timers.pq) (hev : th.timers.heap p = some e) (hdue : e.timeMs ≤ i.now)
    (he : serve P cf statUpdateMs i { th with timers := th.timers.pop p } p e.timeMs e.cb =
      some r) : Progress cf T K i th .loop r := by
  have hweight : th.timers.weight (timerItem T) =
      timerItem T e.timeMs e.cb + (th.timers.pop p).weight (timerItem T) :=
    Timers.weight_pop hp hev
  have hlen : (th.timers.pop p).pq.length + 1 = th.timers.pq.length :=
    List.length_erase_add_one hp
  -- the thread without the event
  have hst : ∀ {d}, d.event = some (p, e.timeMs) →
      Steady K i.now { th with timers := th.timers.pop p } d := by
    intro d hd
    refine ⟨h.timers.pop, h.bounded, fun q due hq => ?_⟩
    obtain ⟨rfl, rfl⟩ := Prod.mk.inj (Option.some.inj (hd.symm.trans hq))
    exact ⟨h.timers.below _ e hev, h.timers.notMem_pop, hdue⟩
  -- a timer with a delay that was due, and at most one is added
  have hrearms : ∀ {th'}, timerItem T e.timeMs e.cb = 2 * (T + 1 - e.timeMs) →
      Rearms T i.now { th with timers := th.timers.pop p } th' →
      Progress cf T K i th .loop (served th' p) := by
    intro th' hitem hr
    have hst' : Steady K i.now th' (.resolving p e.timeMs) := (hst rfl).effect hr.effect rfl
    obtain ⟨-, hp', -⟩ := hst'.event p _ rfl
    refine ⟨hst'.served hp', fun _ => .inr (load_lt (.inr ⟨hr.work, .inl ?_⟩))⟩
    have hw := hr.effect.weight h.timers.pop
    have hfree := Timers.weight_free (w := timerItem T) hp'
    simp only [served, hfree, firedItem] at hw ⊢
    omega
  unfold serve at he
  split at he
  case h_1 hcb =>
    obtain rfl := Option.some.inj he
    have hfree := Timers.weight_free (w := timerItem T) (h.timers.notMem_pop (p := p))
    refine ⟨(hst (d := .resolving p e.timeMs) rfl).served h.timers.notMem_pop, fun _ => .inr
      (load_lt (.inr ⟨Nat.le_refl _, .inr ⟨?_, .inr ⟨Nat.le_refl _, .inl ?_⟩⟩⟩))⟩
    · simp only [served, hfree, firedItem]
      omega
    · simp only [served, place, Timers.free]
      omega
  case h_2 hcb =>
    obtain ⟨t, ht, rfl⟩ := Option.map_eq_some_iff.mp he
    obtain ⟨hctl, rfl⟩ := TSrvr.step_dequeue ht
    have hst' := hst (d := .upstream p e.timeMs) rfl
    refine ⟨⟨hst'.timers, hst'.bounded, hst'.event⟩, fun _ => .inr (load_lt (.inr
      ⟨?_, .inr ⟨?_, .inr ⟨Nat.le_refl _, .inl ?_⟩⟩⟩))⟩
    · simp only at hctl
      simp [TSrvr.work, TSrvr.starting, hctl]
    · simp only [firedItem]
      omega
    · simp only [place, if_true]
      omega
  case h_3 e' hcb =>
    obtain ⟨t, ht, rfl⟩ := Option.map_eq_some_iff.mp he
    obtain ⟨hleaves, hctl⟩ := TSrvr.step_timeout ht
    have hst' := hst (d := .upstream p e.timeMs) rfl
    refine ⟨⟨hst'.timers, hst'.bounded, hst'.event⟩, fun _ => .inr (load_lt (.inr
      ⟨hleaves.work_le hctl, .inl ?_⟩))⟩
    have hfired : firedItem T t (.upstream p e.timeMs) ≤ 2 * (T + 1 - e.timeMs) - 1 := by
      simp only [firedItem]
      split
      · split_ifs <;> omega
      · exact Nat.zero_le _
    simp only [firedItem, hweight, hcb, timerItem] at hfired ⊢
    omega
  case h_4 c hcb =>
    obtain ⟨C, hC, rfl⟩ := Option.map_eq_some_iff.mp he
    have hset : Touch T { th with timers := th.timers.pop p }
        ({ th with timers := th.timers.pop p }.setSession c
          (some { C with evrWriteable := none, lastActiveMs := i.now })) := by
      refine touch_setSession ?_
      rw [hC]
      exact Nat.le_refl _
    have hsum := sum_sessions_le (K := K) hset.effect
    refine ⟨(hst (d := .writing p e.timeMs c) rfl).effect hset.effect rfl, fun _ => .inr
      (load_lt (.inr ⟨Nat.le_refl _, .inr ⟨?_, .inr ⟨hsum, .inl ?_⟩⟩⟩))⟩
    · simp only [Thread.setSession, firedItem]
      omega
    · simp only [Thread.setSession, place]
      omega
  case h_5 c hcb =>
    obtain ⟨th', hcall, rfl⟩ := Option.map_eq_some_iff.mp he
    exact hrearms (by rw [hcb]; rfl) (rearms_evrEventTimeoutCb hcall)
  case h_6 hcb =>
    obtain rfl := Option.some.inj he
    refine hrearms (by rw [hcb]; rfl) ?_
    split_ifs with hstat
    · exact (touch_of_eq rfl (fun _ => Nat.le_refl _) rfl).quiet.rearms
    · exact rearms_addTimer (Nat.pos_of_ne_zero hstat) _
  case h_7 hcb =>
    obtain rfl := Option.some.inj he
    have hst' := hst (d := .resolving p e.timeMs) rfl
    refine ⟨⟨hst'.timers, hst'.bounded, hst'.event⟩, fun _ => .inr (load_lt (.inr
      ⟨Nat.le_refl _, .inl ?_⟩))⟩
    simp only [firedItem, hweight, hcb, timerItem]
    omega

/-- **One step of a call** keeps the thread in order; and if a subrequest that it takes from its
slot has room, the call is back or has less to do. -/
theorem progress_step (h : Steady K i.now th d) (hT : i.now ≤ T)
    (he : drainStep P cf statUpdateMs top i th d = some r) : Progress cf T K i th d r := by
  cases d with
  | returned w =>
      obtain rfl := Option.some.inj he
      exact ⟨h, fun _ => .inl ⟨w, rfl⟩⟩
  | upstream p due => exact progress_upstream h hT he
  | resolving p due => exact progress_resolving h hT he
  | writing p due c => exact progress_writing h he
  | loop =>
      simp only [drainStep] at he
      split_ifs at he with hpq
      · obtain rfl := Option.some.inj he
        exact ⟨⟨h.timers, h.bounded, fun _ _ he => by cases he⟩, fun _ => .inl ⟨_, rfl⟩⟩
      obtain ⟨o, hturn, he⟩ := Option.bind_eq_some_iff.mp he
      rcases Timers.turn_cases hturn with
        ⟨t, rfl, hp, ht⟩ | ⟨ms, rfl⟩ | ⟨e, rfl, hp, hev, hdue⟩
      · -- a cancelled event
        obtain rfl := Option.some.inj he
        obtain ⟨e, hev⟩ := h.timers.queued top hp
        have hweight := Timers.weight_pop (w := timerItem T) hp hev
        have hlen : (th.timers.pop top).pq.length + 1 = th.timers.pq.length :=
          List.length_erase_add_one hp
        have hsame : t.Ok ∧ t.pq = (th.timers.pop top).pq ∧
            t.weight (timerItem T) = (th.timers.pop top).weight (timerItem T) := by
          rcases ht with rfl | rfl
          · exact ⟨h.timers.pop, rfl, rfl⟩
          · exact ⟨h.timers.pop.free h.timers.notMem_pop, rfl,
              Timers.weight_free h.timers.notMem_pop⟩
        obtain ⟨hok, hq, hw⟩ := hsame
        refine ⟨⟨hok, h.bounded, fun _ _ he => by cases he⟩, fun _ => .inr (load_lt (.inr
          ⟨Nat.le_refl _, .inr ⟨?_, .inr ⟨Nat.le_refl _, .inl ?_⟩⟩⟩))⟩
        · simp only [hw, firedItem]
          omega
        · simp only [hq, place]
          omega
      · obtain rfl := Option.some.inj he
        exact ⟨⟨h.timers, h.bounded, fun _ _ he => by cases he⟩, fun _ => .inl ⟨_, rfl⟩⟩
      · exact progress_serve h hT hp hev hdue he

end Step

/-! ## A call -/

section Run

variable {top : Timers Callback → ℕ} {inp : ℕ → Input}

lemma Steady.mono {now now' : ℕ} {d : Draining} (h : Steady K now th d) (hle : now ≤ now') :
    Steady K now' th d :=
  ⟨h.timers, h.bounded, fun p due he => by
    obtain ⟨hlt, hp, hdue⟩ := h.event p due he
    exact ⟨hlt, hp, hdue.trans hle⟩⟩

/-- The first steps of a call keep a thread in order. -/
lemma Steady.drain (h : Steady K (inp 0).now th .loop) (hmono : Monotone fun n => (inp n).now)
    {n : ℕ} : ∀ {r : Thread σ × Draining}, drain P cf statUpdateMs top inp th n = some r →
      Steady K (inp n).now r.1 r.2 := by
  induction n with
  | zero =>
      intro r he
      obtain rfl := Option.some.inj he
      exact h
  | succ n ih =>
      intro r he
      obtain ⟨⟨th', d⟩, hd, he⟩ := Option.bind_eq_some_iff.mp he
      obtain ⟨hst, -⟩ := progress_step (ih hd) (Nat.le_refl _) he
      exact hst.mono (hmono (Nat.le_succ n))

/-- The timers are in order, and there are finitely many sessions. -/
def Sound (th : Thread σ) : Prop := th.timers.Ok ∧ ∃ K, ∀ c, K ≤ c → th.sessions c = none

lemma Sound.effect {n : ℕ} (h : Sound th) (heff : Effect T n th th') : Sound th' := by
  obtain ⟨hok, K, hK⟩ := h
  refine ⟨heff.ok hok, K, fun c hc => ?_⟩
  have hle := heff.sessions c
  rw [hK c hc] at hle
  exact sessionItem_eq_zero.mp (Nat.le_zero.mp hle)

lemma Sound.setSession (h : Sound th) (c : ℕ) (o : Option ClientSession) :
    Sound (th.setSession c o) := by
  obtain ⟨hok, K, hK⟩ := h
  refine ⟨hok, max K (c + 1), fun c' hc' => ?_⟩
  have hne : c' ≠ c := by omega
  simpa [Thread.setSession, Function.update_of_ne hne] using hK c' (by omega)

lemma Sound.follow {now delay len : ℕ} {t : TSrvr σ} (h : Sound th)
    (he : th.follow now delay len t = some th') : Sound th' := by
  have hsame : Sound { th with srvr := t } := h
  exact hsame.effect (follow_effect (T := 0) he).1

/-- Whatever happens, the thread stays in order. -/
lemma sound_of_reachable (h : (threads P cf statUpdateMs).Reachable th) : Sound th := by
  refine Machine.Reachable.invariant (P := Sound) ?_ ?_ h
  · rintro th rfl
    exact ⟨Timers.ok_empty, 0, fun _ _ => rfl⟩
  · intro th l th' hs hstep
    cases l with
    | accept c C =>
        obtain ⟨-, rfl⟩ := hstep
        exact hs.setSession c _
    | change c C =>
        obtain ⟨-, rfl⟩ := hstep
        exact hs.setSession c _
    | destroy c i => exact hs.effect (quiet_destroy (T := 0) hstep).1.effect
    | proxy c conf i =>
        obtain ⟨C, -, he⟩ := Option.bind_eq_some_iff.mp hstep
        obtain ⟨t, -, hf⟩ := Option.bind_eq_some_iff.mp he
        have hset : Sound { th.setSession c (some { C with u := some (.subr th.srvr.next) }) with
          sessionOf := Function.update th.sessionOf th.srvr.next c } := hs.setSession c _
        exact hset.follow hf
    | queueOutput c i => exact hs.effect (touch_queueOutput (T := 0) hstep).effect
    | srvr l i =>
        obtain ⟨t, -, hf⟩ := hstep
        exact hs.follow hf
    | addTimer now delay cb =>
        obtain rfl := hstep
        exact hs.effect (effect_addTimer (T := 0) th now delay cb)
    | drained =>
        obtain ⟨top, inp, n, w, hmono, hd⟩ := hstep
        obtain ⟨hok, K, hK⟩ := hs
        have hst : Steady K (inp 0).now th .loop := ⟨hok, hK, fun _ _ he => by cases he⟩
        have := hst.drain hmono hd
        exact ⟨this.timers, K, this.bounded⟩

/-- **`dequeue_events` returns**, from every reachable state of a thread and with any readings of a
clock that does not run backwards, nor past `T` during the call (in particular, one that stands
still), if every subrequest that is taken from its slot has room when it is taken, and no step of
the call uses an object that is gone. -/
theorem dequeueEvents_returns_of_room (h : (threads P cf statUpdateMs).Reachable th)
    (hmono : Monotone fun n => (inp n).now) (hT : ∀ n, (inp n).now ≤ T)
    (hdefined : ∀ n, (drain P cf statUpdateMs top inp th n).isSome)
    (hclean : ∀ n th' d, drain P cf statUpdateMs top inp th n = some (th', d) →
      Clean cf (inp n) th' d) :
    ∃ n th' w, drain P cf statUpdateMs top inp th n = some (th', .returned w) := by
  obtain ⟨hok, K, hK⟩ := sound_of_reachable h
  have hst : Steady K (inp 0).now th .loop := ⟨hok, hK, fun _ _ he => by cases he⟩
  choose r hr using fun n => Option.isSome_iff_exists.mp (hdefined n)
  -- what is left to do cannot become less for ever
  obtain ⟨n, hn⟩ := WellFounded.not_rel_apply_succ (r := (· < ·)) fun n =>
    load T K (r n).1 (r n).2
  have he : drainStep P cf statUpdateMs (top (r n).1.timers) (inp n) (r n).1 (r n).2 =
      some (r (n + 1)) := by
    have hnext := hr (n + 1)
    rw [drain, hr n] at hnext
    exact hnext
  obtain ⟨-, hprogress⟩ := progress_step (hst.drain hmono (hr n)) (hT n) he
  rcases hprogress (hclean n _ _ (hr n)) with ⟨w, hw⟩ | hlt
  · exact ⟨n + 1, (r (n + 1)).1, w, by rw [hr (n + 1), ← hw]⟩
  · exact absurd hlt hn

end Run

/-! ## A full pool -/

/-- The event at `p` is a `subr_dequeue` that is due at `now`, and no other is due up to `B`. -/
structure Posted (B now : ℕ) (t : Timers Callback) (p : ℕ) : Prop where
  queued : p ∈ t.pq
  event : ∃ due, due ≤ now ∧ t.heap p = some ⟨eventMagic, due, some .subrDequeue, .active⟩
  later : ∀ q ∈ t.pq, q ≠ p → B < t.timeMs q

/-- Where a call is while the subrequest waits: `subr_dequeue` is posted; or it begins; or it has
posted itself, and is back. -/
inductive Spins (B now : ℕ) (th : Thread σ) : Draining → Prop where
  | posted (p : ℕ) : th.srvr.ctl = .between → Posted B now th.timers p → Spins B now th .loop
  | begun (p due : ℕ) : th.srvr.ctl = .dequeuing → p ∉ th.timers.pq →
      (∀ q ∈ th.timers.pq, B < th.timers.timeMs q) → p < th.timers.fresh →
      Spins B now th (.upstream p due)
  | back (p due q : ℕ) : th.srvr.ctl = .between → p ∉ th.timers.pq →
      Posted B now th.timers q → Spins B now th (.upstream p due)

/-- A call in which a subrequest waits alone for a connection, and the pool is full. -/
structure Starving (B now : ℕ) (th : Thread σ) (d : Draining) : Prop where
  timers : th.timers.Ok
  starved : ∃ m s, th.srvr.Starved m s
  spins : Spins B now th d

section Starving

variable {B now : ℕ} {d : Draining}

lemma Posted.mono {now' p : ℕ} {t : Timers Callback} (h : Posted B now t p) (hle : now ≤ now') :
    Posted B now' t p := by
  obtain ⟨due, hdue, hev⟩ := h.event
  exact ⟨h.queued, ⟨due, hdue.trans hle, hev⟩, h.later⟩

lemma Starving.mono {now' : ℕ} (h : Starving B now th d) (hle : now ≤ now') :
    Starving B now' th d := by
  refine ⟨h.timers, h.starved, ?_⟩
  cases h.spins with
  | posted p hctl hp => exact .posted p hctl (hp.mono hle)
  | begun p due hctl hp hlater hf => exact .begun p due hctl hp hlater hf
  | back p due q hctl hp hq => exact .back p due q hctl hp (hq.mono hle)

/-- It is the top of the queue. -/
lemma Posted.top {p top : ℕ} {t : Timers Callback} (h : Posted B now t p) (hB : now ≤ B)
    (htop : t.IsTop top) : top = p := by
  obtain ⟨due, hdue, hev⟩ := h.event
  by_contra hne
  have hlater := h.later top htop.1 hne
  have hle := htop.2 p h.queued
  have hp : t.timeMs p = due := by
    simp [Timers.timeMs, hev]
  omega

/-- Where a subrequest is put back into a new slot, `subr_dequeue` is posted. -/
lemma follow_requeued {m s delay len : ℕ} {t : TSrvr σ} (hc : t.calls = th.srvr.calls)
    (ht : t.timers = th.srvr.timers) (hold : th.srvr.subrList = [(m, some s)])
    (hnew : t.subrList = [(th.srvr.next, some s)]) (hm : m < th.srvr.next) :
    th.follow now delay len t = some ({ th with srvr := t }.addTimer now 0 .subrDequeue) := by
  have hfresh : Thread.fresh t.subrList th.srvr.subrList = [th.srvr.next] := by
    rw [hold, hnew]
    simp [Thread.fresh, hm.ne']
  simp only [Thread.follow, hc, ht, List.drop_length, fresh_eq_nil (List.Subset.refl _), hfresh,
    List.foldlM_nil, List.foldl_nil, List.foldl_cons]
  rfl

/-- **A starving call** goes on, and starves. -/
lemma Starving.step {top : ℕ} {i : Input} (h : Starving B i.now th d) (hB : i.now ≤ B)
    (hrun : i.stopped = false) (hfate : i.fate = none)
    (htop : th.timers.pq ≠ [] → th.timers.IsTop top) :
    ∃ r, drainStep P cf statUpdateMs top i th d = some r ∧ Starving B i.now r.1 r.2 := by
  obtain ⟨m, s, hstarved⟩ := h.starved
  cases h.spins with
  | posted p hctl hposted =>
      have hne : th.timers.pq ≠ [] := List.ne_nil_of_mem hposted.queued
      obtain rfl := hposted.top hB (htop hne)
      obtain ⟨due, hdue, hev⟩ := hposted.event
      have hturn : th.timers.turn i.now top =
          some (.serve (th.timers.pop top) due (some .subrDequeue)) := by
        rw [Timers.turn, if_pos (htop hne), hev]
        simp [Nat.not_lt.mpr hdue]
      have hdequeue : th.srvr.step P cf .dequeue = some { th.srvr with ctl := .dequeuing } := by
        simp only [TSrvr.step, hctl]
      refine ⟨({ th with timers := th.timers.pop top, srvr := { th.srvr with ctl := .dequeuing } },
        .upstream top due), ?_, h.timers.pop, ⟨m, s, ?_⟩, ?_⟩
      · simp only [drainStep, if_neg hne, hturn, Option.bind_eq_bind, Option.bind_some, serve,
          hdequeue, Option.map_some]
      · exact ⟨hstarved.list, hstarved.size, hstarved.slot, hstarved.noIdle, hstarved.full⟩
      · refine .begun top due rfl h.timers.notMem_pop (fun q hq => ?_) (h.timers.below _ _ hev)
        have hmem := h.timers.nodup.mem_erase_iff.mp hq
        exact hposted.later q hmem.2 hmem.1
  | begun p due hctl hp hlater hf =>
      have hturn : ∃ t, th.srvr.step P cf (.turn ⟨i.stopped, i.lookup, i.request⟩) = some t ∧
          t.Starved th.srvr.next s ∧ t.ctl = .between ∧ t.calls = th.srvr.calls ∧
          t.timers = th.srvr.timers := hstarved.turn hctl hrun
      obtain ⟨t, ht, hst, hback, hcalls, htimers⟩ := hturn
      have hasked : Thread.asked th.srvr t = false := by
        simp [Thread.asked, hback]
      have hfollow : ∀ delay, th.follow i.now delay i.errorLen t =
          some ({ th with srvr := t }.addTimer i.now 0 .subrDequeue) := fun delay =>
        follow_requeued hcalls htimers hstarved.list hst.list hstarved.slot
      refine ⟨({ th with srvr := t }.addTimer i.now 0 .subrDequeue, .upstream p due), ?_,
        h.timers.addEvent, ⟨_, s, hst⟩, ?_⟩
      · simp [drainStep, upstream, hctl, hfate, Thread.dequeueTurn, ht, hfollow, hasked]
      · refine .back p due th.timers.fresh hback ?_ ⟨List.mem_cons_self, ⟨i.now, Nat.le_refl _, ?_⟩,
          fun q hq hne => ?_⟩
        · intro hm
          rcases List.mem_cons.mp hm with rfl | hm
          · exact Nat.lt_irrefl _ hf
          · exact hp hm
        · exact Function.update_self _ _ _
        · have hold := hlater q ((List.mem_cons.mp hq).resolve_left hne)
          simpa [Timers.timeMs, Thread.addTimer, Timers.addEvent, Function.update_of_ne hne]
            using hold
  | back p due q hctl hp hposted =>
      obtain ⟨due', hdue', hev⟩ := hposted.event
      have hkept : ∀ q' ∈ th.timers.pq, q' ≠ p := by
        rintro q' hq' rfl
        exact hp hq'
      refine ⟨served th p, ?_, h.timers.free hp, ⟨m, s, hstarved⟩,
        .posted q hctl ⟨hposted.queued, ⟨due', hdue', ?_⟩, fun q' hq' hne => ?_⟩⟩
      · simp only [drainStep, upstream, hctl]
      · simpa [served, Timers.free, Function.update_of_ne (hkept q hposted.queued)] using hev
      · have hlater := hposted.later q' hq' hne
        simpa [served, Timers.timeMs, Timers.free, Function.update_of_ne (hkept q' hq')]
          using hlater

/-- **With a full pool the call does not return** as long as the clock has not come to the next
timer, and no lookup ends. -/
theorem Starving.never_returns {top : Timers Callback → ℕ} {inp : ℕ → Input}
    (h : Starving B (inp 0).now th .loop) (hmono : Monotone fun n => (inp n).now)
    (hB : ∀ n, (inp n).now ≤ B) (hrun : ∀ n, (inp n).stopped = false)
    (hfate : ∀ n, (inp n).fate = none)
    (htop : ∀ t : Timers Callback, t.pq ≠ [] → t.IsTop (top t)) (n : ℕ) :
    ∃ th' d, drain P cf statUpdateMs top inp th n = some (th', d) ∧ ∀ w, d ≠ .returned w := by
  have key : ∃ r, drain P cf statUpdateMs top inp th n = some r ∧
      Starving B (inp n).now r.1 r.2 := by
    induction n with
    | zero => exact ⟨_, rfl, h⟩
    | succ n ih =>
        obtain ⟨r, hr, hst⟩ := ih
        have hstep : ∃ r', drainStep P cf statUpdateMs (top r.1.timers) (inp n) r.1 r.2 = some r' ∧
            Starving B (inp n).now r'.1 r'.2 := hst.step (hB n) (hrun n) (hfate n) (htop r.1.timers)
        obtain ⟨r', hr', hst'⟩ := hstep
        refine ⟨r', ?_, hst'.mono (hmono (Nat.le_succ n))⟩
        rw [drain, hr]
        exact hr'
  obtain ⟨⟨th', d⟩, hd, hst⟩ := key
  refine ⟨th', d, hd, ?_⟩
  rintro w rfl
  cases hst.spins

end Starving

/-! ## A pool of one connection -/

/-- The first of the queued events with the earliest deadline. -/
def firstTop (t : Timers Callback) : ℕ := (t.pq.argmin t.timeMs).getD 0

lemma isTop_firstTop (t : Timers Callback) (h : t.pq ≠ []) : t.IsTop (firstTop t) := by
  obtain ⟨p, hp⟩ : ∃ p, t.pq.argmin t.timeMs = some p :=
    Option.ne_none_iff_exists'.mp (by simpa [List.argmin_eq_none] using h)
  unfold firstTop
  rw [hp]
  exact ⟨List.argmin_mem hp, fun q hq => List.le_of_mem_argmin hq hp⟩

/-- A thread that may have one connection, and whose resolver knows all addresses. -/
def oneConf : TConf := ⟨1, true, false, -1⟩

/-- A client whose request was read. -/
def newClient : ClientSession := ⟨false, 0, none, true, none, none, 0, 10000⟩

/-- The clock stands still, connections open at once, and requests of 10 bytes are written. -/
def readyInput : Input where
  now := 0
  stopped := false
  lookup := .fast
  request := some 10
  subrTimeoutMs := 10000
  upsElapsedMs := 0
  upsTimeoutMs := 10000
  fate := none
  dnsActive := false
  setup := ⟨true, true, true⟩
  connect := ⟨.connected true, .connected, true⟩
  send := .sent 10
  accepted := false
  write := .status .again
  fileRead := none
  shutdown := false
  errorLen := 100

/-- A client comes, and its request is proxied. -/
def clientProxied (th : Thread (List UInt8)) (c : ℕ) : Option (Thread (List UInt8)) :=
  if th.sessions c = none then
    (th.setSession c (some newClient)).proxy okParser oneConf 0 100 c okSubr
  else none

lemma reachable_clientProxied {th th' : Thread (List UInt8)} {c : ℕ}
    (h : (threads okParser oneConf 0).Reachable th) (he : clientProxied th c = some th') :
    (threads okParser oneConf 0).Reachable th' := by
  unfold clientProxied at he
  split_ifs at he with hc
  have haccept : (threads okParser oneConf 0).Reachable (th.setSession c (some newClient)) :=
    h.step (a := .accept c newClient) ⟨hc, rfl⟩
  exact haccept.step (a := .proxy c okSubr readyInput) he

/-- A call with this input. -/
def readyDrain (th : Thread (List UInt8)) (n : ℕ) : Option (Thread (List UInt8) × Draining) :=
  drain okParser oneConf 0 firstTop (fun _ => readyInput) th n

/-- The call is back after eight steps, and what they took from a slot had room. -/
def Returns (th : Thread (List UInt8)) : Prop :=
  (readyDrain th 8).map Prod.snd = some (.returned 10000) ∧
    ∀ n < 8, (readyDrain th n).all fun r => Clean oneConf readyInput r.1 r.2

instance (th : Thread (List UInt8)) : Decidable (Returns th) :=
  inferInstanceAs (Decidable (_ ∧ ∀ n < 8, _))

/-- A call that has returned stays returned. -/
lemma readyDrain_of_returned {th th' : Thread (List UInt8)} {m w : ℕ}
    (h : readyDrain th m = some (th', .returned w)) (n : ℕ) :
    readyDrain th (m + n) = some (th', .returned w) := by
  induction n with
  | zero => exact h
  | succ n ih =>
      rw [← Nat.add_assoc, readyDrain, drain]
      rw [readyDrain] at ih
      rw [ih]
      rfl

lemma readyDrain_isSome {th : Thread (List UInt8)} {m n : ℕ} (hle : m ≤ n)
    (h : (readyDrain th n).isSome) : (readyDrain th m).isSome := by
  induction hle with
  | refl => exact h
  | step _ ih =>
      refine ih ?_
      obtain ⟨r, hr⟩ := Option.isSome_iff_exists.mp h
      obtain ⟨r', hr', -⟩ := Option.bind_eq_some_iff.mp hr
      exact Option.isSome_iff_exists.mpr ⟨r', hr'⟩

namespace Returns

variable {th : Thread (List UInt8)}

lemma after (h : Returns th) (n : ℕ) :
    ∃ th', readyDrain th (8 + n) = some (th', .returned 10000) := by
  obtain ⟨⟨th', d⟩, hr, rfl⟩ := Option.map_eq_some_iff.mp h.1
  exact ⟨th', readyDrain_of_returned hr n⟩

lemma defined (h : Returns th) (n : ℕ) : (readyDrain th n).isSome := by
  obtain ⟨th', hr⟩ := h.after n
  exact readyDrain_isSome (Nat.le_add_left n 8) (Option.isSome_iff_exists.mpr ⟨_, hr⟩)

lemma clean (h : Returns th) {n : ℕ} {th' : Thread (List UInt8)} {d : Draining}
    (hd : readyDrain th n = some (th', d)) : Clean oneConf readyInput th' d := by
  rcases Nat.lt_or_ge n 8 with hlt | hge
  · simpa [hd] using h.2 n hlt
  · obtain ⟨k, rfl⟩ := Nat.exists_eq_add_of_le hge
    obtain ⟨th₁, hr⟩ := h.after k
    obtain ⟨rfl, rfl⟩ := Prod.mk.inj (Option.some.inj (hd.symm.trans hr))
    simp [Clean, nextTaken]

end Returns

theorem dequeueEvents_returns_of_room_one :
    ∃ th, (threads okParser oneConf 0).Reachable th ∧ th.srvr.subrListSize = 1 ∧
      ∃ n th' w, drain okParser oneConf 0 firstTop (fun _ => readyInput) th n =
        some (th', .returned w) := by
  have hrun : (clientProxied (.new oneConf) 0).map (fun th =>
      (th.srvr.subrListSize, decide (Returns th))) = some (1, true) := by
    decide +kernel
  obtain ⟨th, hth, he⟩ := Option.map_eq_some_iff.mp hrun
  obtain ⟨hsize, hret⟩ := Prod.mk.inj he
  have hret : Returns th := of_decide_eq_true hret
  have hr : (threads okParser oneConf 0).Reachable th := reachable_clientProxied (.start rfl) hth
  exact ⟨th, hr, hsize, dequeueEvents_returns_of_room hr monotone_const (fun _ => Nat.le_refl 0)
    hret.defined fun _ _ _ hd => hret.clean hd⟩

/-- The subrequest of the second client waits, while the first has the connection. -/
def SecondWaits (th : Thread (List UInt8)) : Prop :=
  th.srvr.subrList = [(5, some 4)] ∧ th.srvr.subrListSize = 1 ∧ th.srvr.next = 6 ∧
    (th.srvr.subrs 4).map Subr.conf = some okSubr ∧
    th.srvr.nconnProxyPool.idleConnLru.get okSubr.getLabel = none ∧
    th.srvr.nconnProxyPool.getActiveAvailable = 0 ∧ th.srvr.ctl = .between ∧
    th.timers.pq = [2, 1] ∧ th.timers.timeMs 1 = 10000 ∧
    (th.timers.heap 2).map (fun e => (e.magic, e.timeMs, e.cb, e.state)) =
      some (eventMagic, 0, some .subrDequeue, .active)

instance (th : Thread (List UInt8)) : Decidable (SecondWaits th) :=
  inferInstanceAs (Decidable (_ ∧ _ ∧ _ ∧ _ ∧ _ ∧ _ ∧ _ ∧ _ ∧ _ ∧ _))

lemma SecondWaits.starving {th : Thread (List UInt8)} (h : SecondWaits th) (hok : th.timers.Ok) :
    Starving 9999 0 th .loop := by
  obtain ⟨hlist, hsize, hnext, hconf, hidle, hfull, hctl, hpq, htime, hev⟩ := h
  obtain ⟨S, hS, hconf⟩ := Option.map_eq_some_iff.mp hconf
  obtain ⟨⟨magic, time, cb, state⟩, hheap, he⟩ := Option.map_eq_some_iff.mp hev
  simp only [Prod.mk.injEq] at he
  obtain ⟨rfl, rfl, rfl, rfl⟩ := he
  refine ⟨hok, ⟨5, 4, hlist, hsize, by rw [hnext]; decide, ⟨S, hS, by rw [hconf]; exact hidle⟩,
    hfull⟩, .posted 2 hctl ⟨by simp [hpq], ⟨0, Nat.le_refl _, hheap⟩, fun q hq hne => ?_⟩⟩
  obtain rfl : q = 1 := by simpa [hpq, hne] using hq
  rw [htime]
  decide

/-- Two clients and a pool of one: the subrequest of the first takes the connection, and the call
that comes to that of the second does not end. -/
theorem full_pool_never_returns :
    ¬ ∀ (cf : TConf) (th : Thread (List UInt8)), (threads okParser cf 0).Reachable th →
      ∀ (top : Timers Callback → ℕ) (inp : ℕ → Input) (T : ℕ),
        (∀ t : Timers Callback, t.pq ≠ [] → t.IsTop (top t)) →
        (Monotone fun n => (inp n).now) → (∀ n, (inp n).now ≤ T) →
        (∀ n, (drain okParser cf 0 top inp th n).isSome) →
        ∃ n th' w, drain okParser cf 0 top inp th n = some (th', .returned w) := by
  have hrun : ((clientProxied (.new oneConf) 0).bind fun th => (readyDrain th 8).bind fun r =>
      if r.2 = .returned 10000 then (clientProxied r.1 1).map fun th => decide (SecondWaits th)
      else none) = some true := by
    decide +kernel
  obtain ⟨th₀, h₀, hrun⟩ := Option.bind_eq_some_iff.mp hrun
  obtain ⟨⟨th₁, d⟩, h₁, hrun⟩ := Option.bind_eq_some_iff.mp hrun
  split_ifs at hrun with hd
  obtain rfl : d = .returned 10000 := hd
  obtain ⟨th, h₂, hwaits⟩ := Option.map_eq_some_iff.mp hrun
  have hr₀ : (threads okParser oneConf 0).Reachable th₀ := reachable_clientProxied (.start rfl) h₀
  have hr₁ : (threads okParser oneConf 0).Reachable th₁ :=
    hr₀.step (a := .drained) ⟨_, _, _, _, monotone_const, h₁⟩
  have hr : (threads okParser oneConf 0).Reachable th := reachable_clientProxied hr₁ h₂
  have hst : Starving 9999 0 th .loop :=
    (of_decide_eq_true hwaits).starving (sound_of_reachable hr).1
  have hnever : ∀ n, ∃ th' d, readyDrain th n = some (th', d) ∧ ∀ w, d ≠ .returned w :=
    hst.never_returns monotone_const (fun _ => Nat.zero_le _) (fun _ => rfl) (fun _ => rfl)
      isTop_firstTop
  intro hall
  obtain ⟨n, th', w, hret⟩ := hall oneConf th hr firstTop (fun _ => readyInput) 0 isTop_firstTop
    monotone_const (fun _ => Nat.le_refl 0) fun n => by
      obtain ⟨th', d, hd, -⟩ := hnever n
      exact Option.isSome_iff_exists.mpr ⟨_, hd⟩
  obtain ⟨th₃, d, hd, hne⟩ := hnever n
  obtain ⟨-, rfl⟩ := Prod.mk.inj (Option.some.inj (hd.symm.trans hret))
  exact hne w rfl

end Srvr

end Is2
